/-
Observers of everything that goes on.

Resolutions, lookups, walks and single calls of layers come, take their steps and go, in any order;
consumers keep the layers behind feeds up to date; items arrive; and things happen beside that are
not known here, as long as they neither look at the log nor write to it. All calls that are made on
the way are remembered.

Two things hold of every such run. It is the run over the same layers without observers, with what
observers write added to the log (`play_unobserved`): the same calls with the same answers are made
of the stores, so these end up the same in contents, in recency and in number of calls. And what is
written down is what the observers of each call are told, call by call (`reports_play`), so that an
observer who writes under a name of its own has exactly the calls that went through it and did not
fail.
-/
import Collate.Proofs.Reports

set_option autoImplicit false

namespace Collate

variable {ι α : Type}

/-! ## 1. One observer among others -/

/-- The layer is around the same store, with more around it. -/
def Layer.LiesIn (place layer : Layer) : Prop :=
  place.store = layer.store ∧ place.wraps <:+ layer.wraps

instance (place layer : Layer) : Decidable (place.LiesIn layer) :=
  inferInstanceAs (Decidable (_ ∧ _))

/-- The observer of a call, if that is what is put around a layer. -/
def Wrap.observer? (call : Call) : Wrap → Option Observer
  | .observed observer => if call ∈ observer.calls then some observer else none
  | .fed _ => none

namespace Observer

/-- Whether two observers write to the same log under the same name. -/
def writesAs (o other : Observer) : Bool := other.bucket = o.bucket && other.name = o.name

/-- As far as a layer is concerned, nobody writes as the observer but the one around `place`. -/
structure Sole (o : Observer) (place layer : Layer) : Prop where
  around : place.wraps.head? = some (.observed o)
  alone : ∀ other inner, .observed other :: inner <:+ layer.wraps → o.writesAs other = true →
    place = ⟨.observed other :: inner, layer.store⟩

variable {o : Observer} {place : Layer}

theorem Sole.inner {wrap : Wrap} {rest : List Wrap} {store : Nat}
    (h : o.Sole place ⟨wrap :: rest, store⟩) : o.Sole place ⟨rest, store⟩ where
  around := h.around
  alone other inner hinner := h.alone other inner (hinner.trans (List.suffix_cons wrap rest))

end Observer

namespace Layer

/-- Whoever is further out is told later. -/
theorem observers_cons (wrap : Wrap) (rest : List Wrap) (store : Nat) (call : Call) :
    (⟨wrap :: rest, store⟩ : Layer).observers call
      = (⟨rest, store⟩ : Layer).observers call ++ (wrap.observer? call).toList := by
  have hlast : (List.filterMap (Wrap.observer? call) [wrap])
      = (wrap.observer? call).toList := by
    cases h : wrap.observer? call <;> simp [h]
  unfold observers
  rw [List.reverse_cons, List.filterMap_append, ← hlast]
  rfl

variable {o : Observer} {place : Layer}

/-- Of the observers of a call, the one who writes under a name is told if the call goes through it
and is of a kind that it observes. -/
theorem filter_observers {layer : Layer} (h : o.Sole place layer) (call : Call) :
    (layer.observers call).filter o.writesAs
      = if call ∈ o.calls ∧ place.LiesIn layer then [o] else [] := by
  obtain ⟨wraps, store⟩ := layer
  induction wraps with
  | nil =>
    have hnot : ¬place.LiesIn ⟨[], store⟩ := fun hl => by
      have hnil := List.suffix_nil.1 hl.2
      simpa [hnil] using h.around
    rw [if_neg fun hc => hnot hc.2]
    rfl
  | cons wrap rest ih =>
    rw [observers_cons, List.filter_append, ih h.inner]
    by_cases hwrap : place.wraps = wrap :: rest
    · -- This is the place, so what is further in is not.
      have hhead : wrap = .observed o := by
        have haround := h.around
        rw [hwrap] at haround
        exact Option.some.inj haround
      subst hhead
      have hown : o.writesAs o = true := by simp [Observer.writesAs]
      have hin : place.LiesIn ⟨.observed o :: rest, store⟩ :=
        ⟨congrArg Layer.store (h.alone o rest List.suffix_rfl hown), hwrap ▸ List.suffix_rfl⟩
      have hnot : ¬place.LiesIn ⟨rest, store⟩ := fun hl => by
        have hlength : (Wrap.observed o :: rest).length ≤ rest.length := hwrap ▸ hl.2.length_le
        exact Nat.not_succ_le_self _ hlength
      by_cases hc : call ∈ o.calls <;> simp [Wrap.observer?, hc, hin, hnot, hown]
    · have hlies : place.LiesIn ⟨wrap :: rest, store⟩ ↔ place.LiesIn ⟨rest, store⟩ := by
        simp [LiesIn, List.suffix_cons_iff, hwrap]
      have hnone : (wrap.observer? call).toList.filter o.writesAs = [] := by
        cases wrap with
        | fed feed => rfl
        | observed other =>
          have hother : o.writesAs other = false := by
            refine Bool.eq_false_iff.2 fun hw => hwrap ?_
            exact congrArg Layer.wraps (h.alone other rest List.suffix_rfl hw)
          by_cases hc : call ∈ other.calls <;> simp [Wrap.observer?, hc, hother]
      simp only [hnone, List.append_nil, hlies]

end Layer

/-- Whether a line is an observer's, about calls of a kind. -/
def LogLine.isBy (line : LogLine ι α) (o : Observer) (kind : Call) : Bool :=
  line.bucket = o.bucket && line.occurrence.subject? = some (kind, o.name)

/-- What is in an observer's log about calls of a kind, the earliest in front. -/
def System.reportsOf (sys : System ι α) (o : Observer) (kind : Call) : List (LogLine ι α) :=
  sys.reports.filter fun line => line.isBy o kind

namespace Deed

theorem subject?_report {d : Deed ι α} {name : String} {occurrence : Occurrence ι α}
    (h : d.report? name = some occurrence) : occurrence.subject? = some (d.request.kind, name) := by
  unfold report? at h
  split at h
  · cases h
  · obtain rfl := Option.some.inj h
    cases d.request <;> rfl

theorem isBy_line {d : Deed ι α} {other o : Observer} {line : LogLine ι α} {kind : Call}
    (h : d.line? other = some line) :
    line.isBy o kind = (decide (d.request.kind = kind) && o.writesAs other) := by
  obtain ⟨occurrence, hreport, rfl⟩ := Option.map_eq_some_iff.1 h
  simp only [LogLine.isBy, subject?_report hreport, Observer.writesAs, Option.some.injEq,
    Prod.mk.injEq, Bool.decide_and]
  rw [Bool.and_left_comm]

/-- What the observer around `place` writes of a call. -/
theorem filter_told {d : Deed ι α} {o : Observer} {place : Layer} (h : o.Sole place d.layer)
    (kind : Call) :
    d.told.filter (fun line => line.isBy o kind)
      = if kind ∈ o.calls ∧ d.request.kind = kind ∧ place.LiesIn d.layer then (d.line? o).toList
        else [] := by
  have hlines : d.told.filter (fun line => line.isBy o kind)
      = ((d.layer.observers d.request.kind).filter fun other =>
          decide (d.request.kind = kind) && o.writesAs other).filterMap d.line? := by
    unfold told
    rw [List.filter_filterMap, List.filterMap_filter]
    refine List.filterMap_congr fun other _ => ?_
    cases hline : d.line? other with
    | none => simp
    | some line => simp [Option.filter, isBy_line hline]
  rw [hlines]
  by_cases hkind : d.request.kind = kind
  · subst hkind
    simp only [decide_true, Bool.true_and, true_and, Layer.filter_observers h]
    split
    · cases hline : d.line? o <;> simp [hline]
    · rfl
  · simp [hkind]

end Deed

/-! ## 2. What goes on -/

/-- What comes of something that was asked for. -/
inductive Result (ι α : Type) where
  | entries (result : Except Error (Entries ι (List α)))
  | found (result : Except Error (Found ι α))
  | done (result : Except Error Unit)

/-- Something that was asked for and goes on. -/
inductive Venture (ι α : Type) where
  /-- Ids are resolved along a path. -/
  | resolving (resolution : Resolution ι α)
  /-- Ids are looked up in layers with an origin behind them. -/
  | computing (origin : Origin ι α) (walk : Walk ι α)
  /-- Ids are looked up in one layer. -/
  | looking (lookup : Lookup ι)
  /-- A layer is to be given entries. -/
  | putting (layer : Layer) (entries : Entries ι (List α))
  /-- Ids are to be removed from a layer. -/
  | removing (layer : Layer) (ids : List ι)
  /-- Both, as one. -/
  | updating (layer : Layer) (entries : Entries ι (List α)) (removals : List ι)

namespace Venture

/-- Without the layers' observers. -/
def unobserved : Venture ι α → Venture ι α
  | .resolving r => .resolving r.unobserved
  | .computing origin walk => .computing origin walk.unobserved
  | .looking lookup => .looking lookup.unobserved
  | .putting layer entries => .putting layer.unobserved entries
  | .removing layer ids => .removing layer.unobserved ids
  | .updating layer entries removals => .updating layer.unobserved entries removals

/-- Goes away before the end. -/
def cancel (v : Venture ι α) (sys : System ι α) : System ι α :=
  match v with
  | .resolving r => r.cancel sys
  | .computing _ walk => walk.unwatch sys
  | .looking lookup => lookup.unwatch sys
  | _ => sys

theorem cancel_unobserved (v : Venture ι α) (sys : System ι α) :
    v.unobserved.cancel sys.unobserved = (v.cancel sys).unobserved := by
  cases v with
  | resolving r => exact r.cancel_unobserved sys
  | computing origin walk => exact walk.unwatch_unobserved sys
  | looking lookup => exact lookup.unwatch_unobserved sys
  | putting | removing | updating => rfl

variable [DecidableEq ι]

/-- One step. A call of a layer takes one and no more. -/
def step (v : Venture ι α) (sys : System ι α) :
    Progress (Venture ι α) (Result ι α) × System ι α :=
  match v with
  | .resolving r => ((r.step sys).1.map .resolving .entries, (r.step sys).2)
  | .computing origin walk =>
    ((walk.step origin sys).1.map (.computing origin) .entries, (walk.step origin sys).2)
  | .looking lookup => ((lookup.step sys).1.map .looking .found, (lookup.step sys).2)
  | .putting layer entries =>
    (.finished (.done (sys.write layer entries).1), (sys.write layer entries).2)
  | .removing layer ids => (.finished (.done (sys.remove layer ids).1), (sys.remove layer ids).2)
  | .updating layer entries removals =>
    (.finished (.done (sys.update layer entries removals).1), (sys.update layer entries removals).2)

theorem step_unobserved (v : Venture ι α) (sys : System ι α) :
    v.unobserved.step sys.unobserved
      = ((v.step sys).1.map unobserved id, (v.step sys).2.unobserved) := by
  cases v with
  | resolving r =>
    simp only [unobserved, step, r.step_unobserved sys]
    cases (r.step sys).1 <;> rfl
  | computing origin walk =>
    simp only [unobserved, step, walk.step_unobserved origin sys]
    cases (walk.step origin sys).1 <;> rfl
  | looking lookup =>
    simp only [unobserved, step, lookup.step_unobserved sys]
    cases (lookup.step sys).1 <;> rfl
  | putting layer entries => simp only [unobserved, step, sys.write_unobserved]; rfl
  | removing layer ids => simp only [unobserved, step, sys.remove_unobserved]; rfl
  | updating layer entries removals => simp only [unobserved, step, sys.update_unobserved]; rfl

/-- The call made with the next step. -/
def demand? : Venture ι α → Option (Demand ι α)
  | .resolving r => r.demand?
  | .computing _ walk => walk.demand?
  | .looking lookup => lookup.demand?
  | .putting layer entries => some ⟨layer, .put entries⟩
  | .removing layer ids => some ⟨layer, .remove ids⟩
  | .updating layer entries removals => some ⟨layer, .update entries removals⟩

omit [DecidableEq ι] in
/-- Whoever goes away makes no call. -/
theorem cancel_eq (v : Venture ι α) (sys : System ι α) :
    ∃ feeds locks ready,
      v.cancel sys = { sys with feeds := feeds, locks := locks, ready := ready } := by
  have hlookup : ∀ lookup : Lookup ι, ∃ feeds locks ready,
      lookup.unwatch sys = { sys with feeds := feeds, locks := locks, ready := ready } :=
    fun lookup => (lookup.unwatch_eq sys).imp fun _ h => ⟨sys.locks, sys.ready, h⟩
  have hsame : ∃ feeds locks ready,
      sys = { sys with feeds := feeds, locks := locks, ready := ready } :=
    ⟨sys.feeds, sys.locks, sys.ready, rfl⟩
  cases v with
  | resolving r =>
    obtain ⟨feeds, ready, _, h⟩ := r.cancel_eq sys
    exact ⟨feeds, _, ready, h⟩
  | computing origin walk =>
    cases walk with
    | descending lookup => exact hlookup lookup
    | asking | waiting | returning => exact hsame
  | looking lookup => exact hlookup lookup
  | putting | removing | updating => exact hsame

theorem bears_step (v : Venture ι α) (sys : System ι α) :
    System.Bears v.demand? sys (v.step sys).2 := by
  cases v with
  | resolving r => exact (r.stepped sys).bears
  | computing origin walk => exact (walk.stepped origin sys).bears
  | looking lookup => exact (lookup.stepped sys).bears
  | putting layer entries => exact .write sys layer entries
  | removing layer ids => exact .remove sys layer ids
  | updating layer entries removals => exact .update sys layer entries removals

end Venture

/-! ## 3. Runs -/

/-- Everything that goes on: what was asked for, consumers of feeds, and the state they share. Of
what has happened, the results and the calls of stores are remembered, the earliest in front. -/
structure Scene (ι α : Type) where
  ventures : List (Venture ι α)
  consumers : List (Consumer ι α)
  system : System ι α
  results : List (Result ι α)
  deeds : List (Deed ι α)

/-- Whatever happens, the log is left alone and makes no difference. -/
def System.Blind (change : System ι α → System ι α) : Prop :=
  ∀ sys log, change { sys with log := log } = { change sys with log := log }

namespace Scene

/-- Nothing was asked for yet. -/
def start (consumers : List (Consumer ι α)) (sys : System ι α) : Scene ι α :=
  ⟨[], consumers, sys, [], []⟩

/-- What happens next. -/
inductive Move (ι α : Type) where
  /-- Ids are to be resolved along a path. -/
  | resolve (path : Path ι α) (ids : List ι)
  /-- Something else is asked for. -/
  | begin (venture : Venture ι α)
  /-- The venture at this place takes a step. -/
  | step (place : Nat)
  /-- The venture at this place is dropped. -/
  | drop (place : Nat)
  /-- The consumer at this place takes a step. -/
  | consume (place : Nat)
  /-- There is something else to come in for the consumer at this place. -/
  | arrive (place : Nat) (inlet : Inlet (FeedItem α))
  /-- The consumer at this place goes away. -/
  | abandon (place : Nat)
  /-- Something happens beside. -/
  | beside (change : System ι α → System ι α) (blind : System.Blind change)

/-- Whether it is known which calls are made. -/
def Move.isKnown : Move ι α → Bool
  | .beside .. => false
  | _ => true

variable [DecidableEq ι]

/-- The call made next. -/
def demand? (t : Scene ι α) : Move ι α → Option (Demand ι α)
  | .step place => t.ventures[place]?.bind Venture.demand?
  | .consume place => t.consumers[place]?.bind Consumer.demand?
  | _ => none

/-- What follows from a move, apart from what is remembered of calls. -/
def moved (t : Scene ι α) : Move ι α → Scene ι α
  | .resolve path ids =>
    let (r, sys) := Resolution.start path ids t.system
    { t with ventures := t.ventures ++ [.resolving r], system := sys }
  | .begin venture => { t with ventures := t.ventures ++ [venture] }
  | .step place =>
    match t.ventures[place]? with
    | none => t
    | some v =>
      match v.step t.system with
      | (.blocked, sys) => { t with system := sys }
      | (.going next, sys) => { t with ventures := t.ventures.set place next, system := sys }
      | (.finished result, sys) =>
        { t with
          ventures := t.ventures.eraseIdx place
          system := sys
          results := t.results ++ [result] }
  | .drop place =>
    match t.ventures[place]? with
    | none => t
    | some v => { t with ventures := t.ventures.eraseIdx place, system := v.cancel t.system }
  | .consume place =>
    match t.consumers[place]? with
    | none => t
    | some c =>
      { t with
        consumers := t.consumers.set place (c.step t.system).2.1
        system := (c.step t.system).2.2 }
  | .arrive place inlet =>
    match t.consumers[place]? with
    | none => t
    | some c => { t with consumers := t.consumers.set place { c with inlet := inlet } }
  | .abandon place =>
    match t.consumers[place]? with
    | none => t
    | some c => { t with consumers := t.consumers.set place c.abandon }
  | .beside change _ => { t with system := change t.system }

/-- The scene after a move. -/
def after (t : Scene ι α) (move : Move ι α) : Scene ι α :=
  { t.moved move with deeds := t.deeds ++ t.system.deeds (t.demand? move) }

/-- The scene after all moves of a run. -/
def play (t : Scene ι α) (moves : List (Move ι α)) : Scene ι α := moves.foldl after t

end Scene

/-! ## 4. Runs without observers -/

/-- The same call of the layer without its observers. -/
def Demand.unobserved (d : Demand ι α) : Demand ι α := { d with layer := d.layer.unobserved }

/-- The same deed on the layer without its observers. -/
def Deed.unobserved (d : Deed ι α) : Deed ι α := { d with toDemand := d.toDemand.unobserved }

theorem Lookup.demand?_unobserved (l : Lookup ι) :
    l.unobserved.demand? = (l.demand? : Option (Demand ι α)).map Demand.unobserved := by
  obtain ⟨layer, ids, _ | ⟨ref, rest⟩, alarm⟩ := l <;> rfl

theorem Consumer.demand?_unobserved (c : Consumer ι α) :
    c.unobserved.demand? = c.demand?.map Demand.unobserved := by
  obtain ⟨feed, merge, backing, inlet, collector, stage⟩ := c
  cases stage with
  | reading lookup => exact lookup.demand?_unobserved
  | gathering | writing | applied | ended => rfl

variable [DecidableEq ι]

theorem Walk.demand?_unobserved (walk : Walk ι α) :
    walk.unobserved.demand? = walk.demand?.map Demand.unobserved := by
  cases walk with
  | descending lookup => exact lookup.demand?_unobserved
  | asking | waiting => rfl
  | returning fetched frames => cases frames <;> rfl

theorem Resolution.demand?_unobserved (r : Resolution ι α) :
    r.unobserved.demand? = r.demand?.map Demand.unobserved := by
  obtain ⟨path, ids, ticket, phase⟩ := r
  cases phase with
  | wantsShared | wantsExclusive => rfl
  | peeking lookup => exact lookup.demand?_unobserved
  | walking walk => exact walk.demand?_unobserved

theorem Venture.demand?_unobserved (v : Venture ι α) :
    v.unobserved.demand? = v.demand?.map Demand.unobserved := by
  cases v with
  | resolving r => exact r.demand?_unobserved
  | computing origin walk => exact walk.demand?_unobserved
  | looking lookup => exact lookup.demand?_unobserved
  | putting | removing | updating => rfl

namespace System

theorem deeds_unobserved (sys : System ι α) (demand? : Option (Demand ι α)) :
    sys.unobserved.deeds (demand?.map Demand.unobserved)
      = (sys.deeds demand?).map Deed.unobserved := by
  cases demand? <;> rfl

omit [DecidableEq ι] in
/-- What happens beside is nothing to the log. -/
theorem Blind.log {change : System ι α → System ι α} (h : Blind change) (sys : System ι α) :
    (change sys).log = sys.log := by
  simpa using congrArg System.log (h sys sys.log)

omit [DecidableEq ι] in
theorem Blind.unobserved {change : System ι α → System ι α} (h : Blind change)
    (sys : System ι α) : change sys.unobserved = (change sys).unobserved := by
  rw [System.unobserved, h sys, System.unobserved, h.log sys]

end System

namespace Scene

/-- The scene over the layers without their observers. -/
def unobserved (t : Scene ι α) : Scene ι α where
  ventures := t.ventures.map Venture.unobserved
  consumers := t.consumers.map Consumer.unobserved
  system := t.system.unobserved
  results := t.results
  deeds := t.deeds.map Deed.unobserved

omit [DecidableEq ι] in
theorem unobserved_start (consumers : List (Consumer ι α)) (sys : System ι α) :
    (start consumers sys).unobserved
      = start (consumers.map Consumer.unobserved) sys.unobserved := rfl

/-- The same move over the layers without their observers. -/
def Move.unobserved : Move ι α → Move ι α
  | .resolve path ids => .resolve path.unobserved ids
  | .begin venture => .begin venture.unobserved
  | move => move

theorem demand?_unobserved (t : Scene ι α) (move : Move ι α) :
    t.unobserved.demand? move.unobserved = (t.demand? move).map Demand.unobserved := by
  cases move with
  | step place =>
    show (t.ventures.map Venture.unobserved)[place]?.bind _ = _
    rw [List.getElem?_map]
    cases h : t.ventures[place]? with
    | none => simp [demand?, h]
    | some v => simp [demand?, h, v.demand?_unobserved]
  | consume place =>
    show (t.consumers.map Consumer.unobserved)[place]?.bind _ = _
    rw [List.getElem?_map]
    cases h : t.consumers[place]? with
    | none => simp [demand?, h]
    | some c => simp [demand?, h, c.demand?_unobserved]
  | resolve | begin | drop | arrive | abandon | beside => rfl

theorem moved_unobserved (t : Scene ι α) (move : Move ι α) :
    t.unobserved.moved move.unobserved = (t.moved move).unobserved := by
  cases move with
  | resolve path ids =>
    simp only [moved, Move.unobserved, unobserved, Resolution.start_unobserved, List.map_append]
    rfl
  | begin venture => simp [moved, Move.unobserved, unobserved]
  | step place =>
    simp only [moved, Move.unobserved, unobserved, List.getElem?_map]
    cases t.ventures[place]? with
    | none => rfl
    | some v =>
      simp only [Option.map_some, v.step_unobserved]
      rcases v.step t.system with ⟨_ | next | result, sys⟩
      · rfl
      · simp [Progress.map, List.map_set]
      · simp [Progress.map, List.eraseIdx_map]
  | drop place =>
    simp only [moved, Move.unobserved, unobserved, List.getElem?_map]
    cases t.ventures[place]? with
    | none => rfl
    | some v => simp [v.cancel_unobserved, List.eraseIdx_map]
  | consume place =>
    simp only [moved, Move.unobserved, unobserved, List.getElem?_map]
    cases t.consumers[place]? with
    | none => rfl
    | some c => simp [c.step_unobserved, List.map_set]
  | arrive place inlet =>
    simp only [moved, Move.unobserved, unobserved, List.getElem?_map]
    cases t.consumers[place]? with
    | none => rfl
    | some c => simp [List.map_set, Consumer.unobserved]
  | abandon place =>
    simp only [moved, Move.unobserved, unobserved, List.getElem?_map]
    cases t.consumers[place]? with
    | none => rfl
    | some c => simp [List.map_set, Consumer.unobserved, Consumer.abandon, Stage.unobserved]
  | beside change blind => simp only [moved, Move.unobserved, unobserved, blind.unobserved]

theorem after_unobserved (t : Scene ι α) (move : Move ι α) :
    t.unobserved.after move.unobserved = (t.after move).unobserved := by
  have hdeeds : (t.unobserved.moved move.unobserved) = (t.moved move).unobserved :=
    t.moved_unobserved move
  unfold after
  rw [hdeeds, demand?_unobserved, show t.unobserved.system = t.system.unobserved from rfl,
    System.deeds_unobserved]
  simp [unobserved]

/-- **Observers change nothing**: a run over the layers without observers is the run over the layers
with them, but for what these have written down. -/
theorem play_unobserved (t : Scene ι α) (moves : List (Move ι α)) :
    t.unobserved.play (moves.map Move.unobserved) = (t.play moves).unobserved := by
  induction moves generalizing t with
  | nil => rfl
  | cons move rest ih =>
    show (t.unobserved.after move.unobserved).play (rest.map Move.unobserved) = _
    rw [after_unobserved, ih]
    rfl

/-! ## 5. Runs with observers -/

/-- What a move does to stores and observers is its call, unless it is not known what it does. -/
theorem bears_moved (t : Scene ι α) {move : Move ι α} (h : move.isKnown = true) :
    System.Bears (t.demand? move) t.system (t.moved move).system := by
  have hnone : ∀ sys : System ι α, System.Bears none sys sys := fun _ => .of_same rfl rfl
  cases move with
  | resolve path ids => exact .of_same rfl rfl
  | begin venture => exact hnone _
  | step place =>
    simp only [demand?, moved]
    cases t.ventures[place]? with
    | none => exact hnone _
    | some v =>
      have hstep := v.bears_step t.system
      dsimp only [Option.bind]
      generalize v.step t.system = out at hstep ⊢
      obtain ⟨_ | next | result, sys⟩ := out <;> exact hstep
  | drop place =>
    simp only [demand?, moved]
    cases t.ventures[place]? with
    | none => exact hnone _
    | some v =>
      obtain ⟨feeds, locks, ready, hcancel⟩ := v.cancel_eq t.system
      dsimp only
      rw [hcancel]
      exact .of_same rfl rfl
  | consume place =>
    simp only [demand?, moved]
    cases t.consumers[place]? with
    | none => exact hnone _
    | some c => exact (c.stepped t.system).bears
  | arrive place inlet =>
    simp only [demand?, moved]
    cases t.consumers[place]? <;> exact hnone _
  | abandon place =>
    simp only [demand?, moved]
    cases t.consumers[place]? <;> exact hnone _
  | beside => cases h

theorem reports_after (t : Scene ι α) (move : Move ι α) :
    (t.after move).system.reports
      = t.system.reports ++ (t.system.deeds (t.demand? move)).flatMap Deed.told := by
  cases hknown : move.isKnown with
  | true => exact (t.bears_moved hknown).reports
  | false =>
    cases move with
    | beside change blind =>
      have hlog : (change t.system).log = t.system.log := blind.log t.system
      show (change t.system).reports = t.system.reports ++ []
      rw [System.reports, hlog, List.append_nil, System.reports]
    | _ => cases hknown

/-- **Observers see everything**: what they have written down is what they were told of each call,
in the order in which the calls were made. -/
theorem reports_play {t : Scene ι α} {before : List (LogLine ι α)}
    (h : t.system.reports = before ++ t.deeds.flatMap Deed.told) (moves : List (Move ι α)) :
    (t.play moves).system.reports = before ++ (t.play moves).deeds.flatMap Deed.told := by
  induction moves generalizing t with
  | nil => exact h
  | cons move rest ih =>
    refine ih (t := t.after move) ?_
    rw [reports_after, h, List.append_assoc, ← List.flatMap_append]
    rfl

/-- The calls of a kind that went through a layer. -/
def deedsAt (t : Scene ι α) (place : Layer) (kind : Call) : List (Deed ι α) :=
  t.deeds.filter fun d => d.request.kind = kind ∧ place.LiesIn d.layer

omit [DecidableEq ι] in
theorem filter_flatMap_told (t : Scene ι α) {o : Observer} {place : Layer}
    (h : ∀ d ∈ t.deeds, o.Sole place d.layer) (kind : Call) :
    (t.deeds.flatMap Deed.told).filter (fun line => line.isBy o kind)
      = if kind ∈ o.calls then (t.deedsAt place kind).filterMap fun d => d.line? o else [] := by
  unfold deedsAt
  generalize t.deeds = deeds at h ⊢
  induction deeds with
  | nil => simp
  | cons d rest ih =>
    obtain ⟨hd, hrest⟩ := List.forall_mem_cons.1 h
    rw [List.flatMap_cons, List.filter_append, Deed.filter_told hd, ih hrest]
    by_cases hkind : kind ∈ o.calls
    · by_cases hplace : d.request.kind = kind ∧ place.LiesIn d.layer
      · cases hline : d.line? o <;> simp [hkind, hplace, hline]
      · simp [hkind, hplace]
    · simp [hkind]

/-- **Observation is transparent and complete.** Take any run, and the same run over the layers
without their observers. Both have the same results and make the same calls of stores and sources,
and both leave every store as the other does: its entries, their recency, and how many calls of each
kind it had. Stores are changed by no calls but those that are remembered, with the answers that the
stores gave. What observers have written down is what they were told call by call; and an observer
that alone writes under its name has written down exactly the calls of the layer it is around that
are of a kind it observes and did not fail, in their order, the hits of lookups and what other calls
were given. -/
theorem observed_play (consumers : List (Consumer ι α)) (sys : System ι α)
    (moves : List (Move ι α)) :
    let t := (start consumers sys).play moves
    let bare := (start (consumers.map Consumer.unobserved) sys.unobserved).play
      (moves.map Move.unobserved)
    (bare.results = t.results ∧ bare.system.stores = t.system.stores
      ∧ bare.system.sources = t.system.sources
      ∧ bare.system.log = t.system.log.filter (fun line => !line.occurrence.isReport)
      ∧ bare.deeds = t.deeds.map Deed.unobserved)
    ∧ (∀ move : Move ι α, move.isKnown = true → ∃ demand? : Option (Demand ι α),
        (t.after move).deeds = t.deeds ++ t.system.deeds demand?
        ∧ (t.after move).system.stores = t.system.served demand?)
    ∧ t.system.reports = sys.reports ++ t.deeds.flatMap Deed.told
    ∧ ∀ (o : Observer) (place : Layer), (∀ d ∈ t.deeds, o.Sole place d.layer) → ∀ kind,
        t.system.reportsOf o kind = sys.reportsOf o kind ++ if kind ∈ o.calls
          then (t.deedsAt place kind).filterMap fun d => d.line? o else [] := by
  intro t bare
  have hbare : bare = t.unobserved := by
    show (start (consumers.map Consumer.unobserved) sys.unobserved).play _ = _
    rw [← unobserved_start, play_unobserved]
  have hreports : t.system.reports = sys.reports ++ t.deeds.flatMap Deed.told :=
    reports_play (by simp [start]) moves
  refine ⟨?_, fun move hmove => ⟨t.demand? move, rfl, (t.bears_moved hmove).stores⟩, hreports,
    fun o place hsole kind => ?_⟩
  · rw [hbare]
    exact ⟨rfl, rfl, rfl, rfl, rfl⟩
  · rw [System.reportsOf, hreports, List.filter_append, t.filter_flatMap_told hsole kind]
    rfl

/-- An observer right around a store. -/
def innermost : Observer := ⟨2, "innermost", [.get, .put]⟩

/-- A layer in front of another one, which is observed twice. -/
def watchedPath : Path Nat Nat where
  lock := 0
  layers := [⟨[.observed ⟨0, "outer", [.get, .put]⟩], 0⟩,
    ⟨[.observed ⟨1, "inner", [.put]⟩, .observed innermost], 1⟩]
  origin := .source 0 3 fun child => child / 10

/-- The store of the layer behind fails when it is written for the first time. -/
def watchedSystem : System Nat Nat where
  stores := .ofList .fresh [.fresh,
    { Store.fresh with faults := fun call n => if call = .put ∧ n = 1 then some "full" else none }]
  sources := .ofList default
    [{ reply := fun _ ids => { items := ids.map fun id => .ok (10 * id + 1) } }]

/-- The same id is resolved twice, one time after the other. -/
def watchedMoves : List (Move Nat Nat) :=
  .resolve watchedPath [4] :: List.replicate 8 (.step 0)
    ++ .resolve watchedPath [4] :: List.replicate 10 (.step 0)

/-- The scene after both. -/
def watchedScene : Scene Nat Nat := (start [] watchedSystem).play watchedMoves

/-- Of the two writes of the layer behind, its innermost observer has the one that did not fail. -/
theorem observed_play_failing :
    (∀ d ∈ watchedScene.deeds, innermost.Sole ⟨[.observed innermost], 1⟩ d.layer)
    ∧ (watchedScene.deedsAt ⟨[.observed innermost], 1⟩ .put).length = 2
    ∧ watchedScene.system.reportsOf innermost .put
      = [⟨2, 0, .layerWritten "innermost" (.ofList [(4, [41])])⟩] := by
  have hlayers : ∀ d ∈ watchedScene.deeds, d.layer ∈ watchedPath.layers := by
    have h : ∀ layer ∈ watchedScene.deeds.map fun d => d.layer, layer ∈ watchedPath.layers := by
      decide
    exact fun d hd => h _ (List.mem_map_of_mem hd)
  have hsole : ∀ d ∈ watchedScene.deeds,
      innermost.Sole ⟨[.observed innermost], 1⟩ d.layer := by
    refine fun d hd => ⟨rfl, fun other inner hinner hwrites => ?_⟩
    have hnot : ∀ other : Observer, other.name ≠ innermost.name →
        innermost.writesAs other ≠ true := by
      intro other hname hw
      exact hname (of_decide_eq_true (Bool.and_eq_true_iff.1 hw).2)
    rcases List.mem_pair.1 (hlayers d hd) with h | h <;> rw [h] at hinner ⊢
    · rcases List.suffix_cons_iff.1 hinner with heq | hnil
      · cases heq
        exact absurd hwrites (hnot _ (by decide))
      · cases List.suffix_nil.1 hnil
    · rcases List.suffix_cons_iff.1 hinner with heq | hinner
      · cases heq
        exact absurd hwrites (hnot _ (by decide))
      · rcases List.suffix_cons_iff.1 hinner with heq | hnil
        · cases heq
          rfl
        · cases List.suffix_nil.1 hnil
  exact ⟨hsole, rfl,
    ((observed_play [] watchedSystem watchedMoves).2.2.2 innermost _ hsole .put).trans rfl⟩

end Scene

end Collate
