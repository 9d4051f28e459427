/-
Resolutions side by side.

Any number of resolutions go along one path, each taking its steps when it likes. At any moment one
more may begin, one that is under way may be dropped, and something else may happen in the shared
state that leaves the path's lock and some of its stores alone. What the resolutions ask for and how
they end is remembered, the latest in front, so that properties of whole runs can be read off the
state a run has led to.
-/
import Mathlib.Data.List.Nodup
import Collate.Proofs.Reach

set_option autoImplicit false

namespace Collate

variable {ι α : Type}

/-- What is remembered of resolutions. -/
inductive Mark (ι α : Type) where
  /-- A resolution asks its origin. -/
  | asked (ticket : Nat) (ids : List ι)
  /-- A resolution for some ids ends. -/
  | returned (ticket : Nat) (ids : List ι) (result : Except Error (Entries ι (List α)))
  /-- A resolution is given up. -/
  | dropped (ticket : Nat)

/-- Whose mark it is. -/
def Mark.ticket : Mark ι α → Nat
  | .asked ticket _ => ticket
  | .returned ticket _ _ => ticket
  | .dropped ticket => ticket

/-- The resolutions under way, the state they share, and what is remembered. -/
structure Traffic (ι α : Type) where
  underway : List (Resolution ι α)
  system : System ι α
  history : List (Mark ι α)

/-- Whether the mark is that of a failure, or of somebody who gave up. -/
def Mark.isFailure : Mark ι α → Bool
  | .dropped _ => true
  | .returned _ _ (.error _) => true
  | _ => false

/-- Nobody is under way. -/
def Traffic.start (sys : System ι α) : Traffic ι α := ⟨[], sys, []⟩

/-! ## 1. What a resolution asks for -/

/-- The ids the origin is asked for with the next step, if it is asked. It is not asked for
nothing. -/
def Walk.asks : Walk ι α → Option (List ι)
  | .asking (id :: rest) _ => some (id :: rest)
  | _ => none

theorem Walk.asks_asking {ids : List ι} (h : ids ≠ []) (frames : List (Frame ι α)) :
    (Walk.asking ids frames).asks = some ids := by
  obtain ⟨id, rest, rfl⟩ := List.exists_cons_of_ne_nil h
  rfl

namespace Resolution

/-- The ids the origin is asked for with the next step of the walk, if there is one. -/
def asks (r : Resolution ι α) : Option (List ι) :=
  match r.phase with
  | .walking walk => walk.asks
  | _ => none

/-- Whether the origin was asked and its answer is still awaited. -/
def awaitsOrigin (r : Resolution ι α) : Bool :=
  match r.phase with
  | .walking (.waiting _ _ _) => true
  | _ => false

/-- What is remembered of a step that goes on. -/
def marks (r : Resolution ι α) : List (Mark ι α) := r.asks.toList.map (.asked r.ticket)

theorem mem_marks {r : Resolution ι α} {mark : Mark ι α} :
    mark ∈ r.marks ↔ ∃ ids, r.asks = some ids ∧ mark = .asked r.ticket ids := by
  simp [marks, eq_comm]

theorem sources_release (sys : System ι α) (lock ticket : Nat) :
    (sys.release lock ticket).sources = sys.sources := by
  obtain ⟨ready, _, h⟩ := System.release_eq sys lock ticket
  rw [h]

theorem stores_release (sys : System ι α) (lock ticket : Nat) :
    (sys.release lock ticket).stores = sys.stores := by
  obtain ⟨ready, _, h⟩ := System.release_eq sys lock ticket
  rw [h]

variable [DecidableEq ι]

theorem sources_lookup {l : Lookup ι} {sys sys' : System ι α}
    {p : Progress (Lookup ι) (Except Error (Found ι α))} (h : l.Stepped sys p sys') :
    sys'.sources = sys.sources := by
  cases h with
  | stalls | watches | passes | refused => rfl
  | reads hw => exact System.sources_read _ _ _

theorem sources_walk {origin : Origin ι α} {walk : Walk ι α} {sys sys' : System ι α}
    {p : Progress (Walk ι α) (Except Error (Entries ι (List α)))}
    (h : Walk.Stepped origin walk sys p sys') :
    sys'.sources = match walk.asks with
      | some ids => (sys.ask origin ids).2.sources
      | none => sys.sources := by
  cases h with
  | stalls h | looks h | unread h | found h hm | missed h hm => exact sources_lookup h
  | spared | waits | failed | answered | done => rfl
  | asked hids => rw [Walk.asks_asking hids]
  | unwritten | written => exact System.sources_write _ _ _

/-- **A source is called just when a resolution asks for something**, and for nothing else. -/
theorem sources_step (r : Resolution ι α) (sys : System ι α) :
    (r.step sys).2.sources = match r.asks with
      | some ids => (sys.ask r.path.origin ids).2.sources
      | none => sys.sources := by
  have h := r.stepped sys
  generalize r.step sys = out at h
  obtain ⟨p, sys'⟩ := out
  dsimp only at h ⊢
  cases h with
  | queues hp h | shares hp hl h | overshoots hp hl h | lingers hp h | enters hp h =>
    simp only [asks, hp]
    rfl
  | stalls hp h | looks hp h =>
    simp only [asks, hp]
    exact sources_lookup h
  | unread hp h | found hp h hm | missed hp h hm =>
    simp only [asks, hp]
    rw [sources_release, sources_lookup h]
  | rests hp h | walks hp h =>
    simp only [asks, hp]
    exact sources_walk h
  | ends hp h =>
    simp only [asks, hp]
    rw [sources_release]
    exact sources_walk h

end Resolution

/-! ## 2. Runs -/

variable [DecidableEq ι]

/-- Whether an id is among those asked for. -/
def Mark.asksFor (id : ι) : Mark ι α → Bool
  | .asked _ ids => decide (id ∈ ids)
  | _ => false

/-- What happens elsewhere: it leaves a lock alone and the contents of some layers' stores, gives out
tickets of its own, and changes nothing about how sources answer. -/
structure Elsewhere (lock : Nat) (own : List Layer) (sys sys' : System ι α) : Prop where
  lock : sys'.locks.get lock = sys.locks.get lock
  tickets : sys.tickets ≤ sys'.tickets
  contents : ∀ layer ∈ own, (sys'.stores.get layer.store).shelf.contents
    = (sys.stores.get layer.store).shelf.contents
  capacity : ∀ layer ∈ own, (sys'.stores.get layer.store).shelf.capacity?
    = (sys.stores.get layer.store).shelf.capacity?
  replies : ∀ n, (sys'.sources.get n).reply = (sys.sources.get n).reply

omit [DecidableEq ι] in
/-- What leaves some stores alone leaves fewer alone. -/
theorem Elsewhere.mono {lock : Nat} {own own' : List Layer} {sys sys' : System ι α}
    (h : Elsewhere lock own sys sys') (hown : own' ⊆ own) : Elsewhere lock own' sys sys' :=
  { h with
    contents := fun layer hl => h.contents layer (hown hl)
    capacity := fun layer hl => h.capacity layer (hown hl) }

namespace Traffic

/-- One step of traffic along a path. Resolutions begin with ids that are admitted. -/
inductive Step (path : Path ι α) (admits : List ι → Prop)
    (elsewhere : System ι α → System ι α → Prop) : Traffic ι α → Traffic ι α → Prop where
  | begins {t : Traffic ι α} {ids : List ι} (h : admits ids) :
      Step path admits elsewhere t
        ⟨t.underway ++ [(Resolution.start path ids t.system).1],
          (Resolution.start path ids t.system).2, t.history⟩
  | waits {before behind : List (Resolution ι α)} {r : Resolution ι α} {sys sys' : System ι α}
      {history : List (Mark ι α)} (h : r.step sys = (.blocked, sys')) :
      Step path admits elsewhere ⟨before ++ r :: behind, sys, history⟩
        ⟨before ++ r :: behind, sys', history⟩
  | goes {before behind : List (Resolution ι α)} {r r' : Resolution ι α} {sys sys' : System ι α}
      {history : List (Mark ι α)} (h : r.step sys = (.going r', sys')) :
      Step path admits elsewhere ⟨before ++ r :: behind, sys, history⟩
        ⟨before ++ r' :: behind, sys', r.marks ++ history⟩
  | returns {before behind : List (Resolution ι α)} {r : Resolution ι α} {sys sys' : System ι α}
      {history : List (Mark ι α)} {result : Except Error (Entries ι (List α))}
      (h : r.step sys = (.finished result, sys')) :
      Step path admits elsewhere ⟨before ++ r :: behind, sys, history⟩
        ⟨before ++ behind, sys', .returned r.ticket r.ids result :: history⟩
  | drops {before behind : List (Resolution ι α)} {r : Resolution ι α} {sys : System ι α}
      {history : List (Mark ι α)} :
      Step path admits elsewhere ⟨before ++ r :: behind, sys, history⟩
        ⟨before ++ behind, r.cancel sys, .dropped r.ticket :: history⟩
  | beside {t : Traffic ι α} {sys : System ι α} (h : elsewhere t.system sys) :
      Step path admits elsewhere t ⟨t.underway, sys, t.history⟩

/-- Traffic leads from one state to another, in any number of steps. -/
def Leads (path : Path ι α) (admits : List ι → Prop)
    (elsewhere : System ι α → System ι α → Prop) : Traffic ι α → Traffic ι α → Prop :=
  Relation.ReflTransGen (Step path admits elsewhere)

/-! ## 3. Tickets -/

/-- Those under way go along the path and have tickets of their own, which were given out; whoever
is under way may have asked for something and has not come to an end. -/
structure Regular (path : Path ι α) (t : Traffic ι α) : Prop where
  path : ∀ r ∈ t.underway, r.path = path
  regular : ∀ r ∈ t.underway, r.Regular
  distinct : (t.underway.map fun r => r.ticket).Nodup
  issued : ∀ r ∈ t.underway, r.ticket < t.system.tickets
  marked : ∀ mark ∈ t.history, mark.ticket < t.system.tickets
  live : ∀ r ∈ t.underway, ∀ mark ∈ t.history, mark.ticket = r.ticket →
    ∃ ids, mark = .asked r.ticket ids

omit [DecidableEq ι] in
theorem regular_start (path : Path ι α) (sys : System ι α) : Regular path (start sys) := by
  refine ⟨?_, ?_, ?_, ?_, ?_, ?_⟩ <;> simp [start]

section Replace

variable {before behind : List (Resolution ι α)} {r r' : Resolution ι α}

omit [DecidableEq ι] in
/-- Whatever holds of those under way and of the one put in place of another holds afterwards. -/
theorem forall_replace {P : Resolution ι α → Prop} (h : ∀ x ∈ before ++ r :: behind, P x)
    (hr : P r') : ∀ x ∈ before ++ r' :: behind, P x := by
  intro x hx
  rcases List.mem_append.1 hx with hx | hx
  · exact h x (List.mem_append_left _ hx)
  · rcases List.mem_cons.1 hx with rfl | hx
    · exact hr
    · exact h x (List.mem_append_right _ (List.mem_cons_of_mem _ hx))

omit [DecidableEq ι] in
theorem mem_of_mem_rest {x : Resolution ι α} (hx : x ∈ before ++ behind) :
    x ∈ before ++ r :: behind := by
  rcases List.mem_append.1 hx with hx | hx
  · exact List.mem_append_left _ hx
  · exact List.mem_append_right _ (List.mem_cons_of_mem _ hx)

omit [DecidableEq ι] in
theorem eq_or_mem_rest {x : Resolution ι α} (hx : x ∈ before ++ r :: behind) :
    x = r ∨ x ∈ before ++ behind := by
  rcases List.mem_append.1 hx with hx | hx
  · exact Or.inr (List.mem_append_left _ hx)
  · rcases List.mem_cons.1 hx with rfl | hx
    · exact Or.inl rfl
    · exact Or.inr (List.mem_append_right _ hx)

omit [DecidableEq ι] in
/-- Of those with tickets of their own, the others have other tickets. -/
theorem ticket_ne_of_mem_rest (h : ((before ++ r :: behind).map fun r => r.ticket).Nodup)
    {x : Resolution ι α} (hx : x ∈ before ++ behind) : x.ticket ≠ r.ticket := by
  rw [List.map_append, List.map_cons, List.nodup_middle, List.nodup_cons] at h
  intro hxr
  refine h.1 ?_
  rw [← hxr, ← List.map_append]
  exact List.mem_map_of_mem hx

omit [DecidableEq ι] in
theorem nodup_rest (h : ((before ++ r :: behind).map fun r => r.ticket).Nodup) :
    ((before ++ behind).map fun r => r.ticket).Nodup := by
  rw [List.map_append, List.map_cons, List.nodup_middle, List.nodup_cons] at h
  rw [List.map_append]
  exact h.2

end Replace

variable {path : Path ι α} {admits : List ι → Prop} {elsewhere : System ι α → System ι α → Prop}
  {t t' : Traffic ι α}

omit [DecidableEq ι] in
/-- Tickets may go to others in the meantime. -/
theorem Regular.mono {sys : System ι α} (ht : Regular path t)
    (htickets : t.system.tickets ≤ sys.tickets) : Regular path ⟨t.underway, sys, t.history⟩ :=
  ⟨ht.path, ht.regular, ht.distinct, fun r hr => Nat.lt_of_lt_of_le (ht.issued r hr) htickets,
    fun mark hm => Nat.lt_of_lt_of_le (ht.marked mark hm) htickets, ht.live⟩

omit [DecidableEq ι] in
theorem Regular.begin (ht : Regular path t) (ids : List ι) :
    Regular path ⟨t.underway ++ [(Resolution.start path ids t.system).1],
      (Resolution.start path ids t.system).2, t.history⟩ := by
  have hnew : ∀ {P : Resolution ι α → Prop}, (∀ r ∈ t.underway, P r) →
      P (Resolution.start path ids t.system).1 →
      ∀ r ∈ t.underway ++ [(Resolution.start path ids t.system).1], P r := by
    intro P hall hone r hr
    rcases List.mem_append.1 hr with hr | hr
    · exact hall r hr
    · exact (List.mem_singleton.1 hr) ▸ hone
  refine ⟨hnew ht.path rfl, hnew ht.regular (Resolution.regular_start path ids t.system), ?_,
    hnew (fun r hr => Nat.lt_succ_of_lt (ht.issued r hr)) (Nat.lt_succ_self _),
    fun mark hm => Nat.lt_succ_of_lt (ht.marked mark hm),
    hnew ht.live fun mark hm hticket => absurd hticket (Nat.ne_of_lt (ht.marked mark hm))⟩
  rw [List.map_append, List.map_singleton]
  refine List.nodup_append.2 ⟨ht.distinct, by simp, fun a ha b hb => ?_⟩
  obtain ⟨r, hr, rfl⟩ := List.mem_map.1 ha
  obtain rfl := List.mem_singleton.1 hb
  exact Nat.ne_of_lt (ht.issued r hr)

section Moves

variable {before behind : List (Resolution ι α)} {r r' : Resolution ι α} {sys sys' : System ι α}
  {history : List (Mark ι α)}

theorem Regular.go (ht : Regular path ⟨before ++ r :: behind, sys, history⟩)
    (h : r.Stepped sys (.going r') sys') :
    Regular path ⟨before ++ r' :: behind, sys', r.marks ++ history⟩ := by
  have hr : r ∈ before ++ r :: behind := by simp
  have htickets : sys'.tickets = sys.tickets := (h.advanced (ht.regular r hr)).tickets
  obtain ⟨⟨phase, rfl⟩, hr', _⟩ := h.going (ht.regular r hr)
  refine ⟨forall_replace ht.path (ht.path r hr), forall_replace ht.regular hr', ?_,
    forall_replace (fun x hx => htickets ▸ ht.issued x hx) (htickets ▸ ht.issued r hr),
    fun mark hm => ?_, ?_⟩
  · have hdistinct := ht.distinct
    simp only [List.map_append, List.map_cons] at hdistinct ⊢
    exact hdistinct
  · rcases List.mem_append.1 hm with hm | hm
    · obtain ⟨ids, _, rfl⟩ := Resolution.mem_marks.1 hm
      exact htickets ▸ ht.issued r hr
    · exact htickets ▸ ht.marked mark hm
  · -- What is new in the history was asked by the one that went on.
    have hall : ∀ x : Resolution ι α, (∀ mark ∈ history, mark.ticket = x.ticket →
        ∃ ids, mark = Mark.asked x.ticket ids) → ∀ mark ∈ r.marks ++ history,
        mark.ticket = x.ticket → ∃ ids, mark = Mark.asked x.ticket ids := by
      intro x hx mark hm hxt
      rcases List.mem_append.1 hm with hm | hm
      · obtain ⟨ids, _, rfl⟩ := Resolution.mem_marks.1 hm
        exact ⟨ids, by rw [← hxt]; rfl⟩
      · exact hx mark hm hxt
    exact forall_replace (fun x hx => hall x (ht.live x hx)) (hall (r.into phase) (ht.live r hr))

omit [DecidableEq ι] in
theorem Regular.leave {mark : Mark ι α} (hmark : mark.ticket = r.ticket)
    (ht : Regular path ⟨before ++ r :: behind, sys, history⟩)
    (htickets : sys'.tickets = sys.tickets) :
    Regular path ⟨before ++ behind, sys', mark :: history⟩ := by
  refine ⟨fun x hx => ht.path x (mem_of_mem_rest hx),
    fun x hx => ht.regular x (mem_of_mem_rest hx), nodup_rest ht.distinct,
    fun x hx => htickets ▸ ht.issued x (mem_of_mem_rest hx), fun other hm => ?_,
    fun x hx other hm hxt => ?_⟩
  · rcases List.mem_cons.1 hm with rfl | hm
    · exact hmark ▸ htickets ▸ ht.issued r (by simp)
    · exact htickets ▸ ht.marked other hm
  · rcases List.mem_cons.1 hm with rfl | hm
    · exact absurd (hxt.symm.trans hmark) (ticket_ne_of_mem_rest ht.distinct hx)
    · exact ht.live x (mem_of_mem_rest hx) other hm hxt

end Moves

/-- Whatever may happen elsewhere may happen where more may happen. -/
theorem Step.mono {elsewhere' : System ι α → System ι α → Prop}
    (h : Step path admits elsewhere t t')
    (hmono : ∀ sys sys', elsewhere sys sys' → elsewhere' sys sys') :
    Step path admits elsewhere' t t' := by
  cases h with
  | begins h => exact .begins h
  | waits h => exact .waits h
  | goes h => exact .goes h
  | returns h => exact .returns h
  | drops => exact .drops
  | beside h => exact .beside (hmono _ _ h)

theorem Regular.step (ht : Regular path t)
    (he : ∀ sys sys', elsewhere sys sys' → sys.tickets ≤ sys'.tickets)
    (h : Step path admits elsewhere t t') : Regular path t' := by
  cases h with
  | begins h => exact ht.begin _
  | @waits before behind r sys sys' history h =>
    have hs := r.stepped sys
    rw [h] at hs
    exact ht.mono (Nat.le_of_eq (hs.advanced (ht.regular r (by simp))).tickets.symm)
  | @goes before behind r r' sys sys' history h =>
    have hs := r.stepped sys
    rw [h] at hs
    exact ht.go hs
  | @returns before behind r sys sys' history result h =>
    have hs := r.stepped sys
    rw [h] at hs
    exact ht.leave rfl (hs.advanced (ht.regular r (by simp))).tickets
  | @drops before behind r sys history =>
    obtain ⟨feeds, ready, _, hcancel⟩ := Resolution.cancel_eq r sys
    refine ht.leave rfl ?_
    rw [hcancel]
  | beside h => exact ht.mono (he _ _ h)

/-! ## 4. Schedules -/

/-- What a schedule does next. -/
inductive Move (ι : Type) where
  | begin (ids : List ι)
  /-- The resolution at this place takes a step. -/
  | step (place : Nat)
  /-- The resolution at this place is dropped. -/
  | drop (place : Nat)
  /-- Time moves on. -/
  | passTo (now : Nat)

/-- The traffic after a move. -/
def after (path : Path ι α) (t : Traffic ι α) : Move ι → Traffic ι α
  | .begin ids =>
    let (r, sys) := Resolution.start path ids t.system
    ⟨t.underway ++ [r], sys, t.history⟩
  | .step place =>
    match t.underway[place]? with
    | none => t
    | some r =>
      match r.step t.system with
      | (.blocked, sys) => ⟨t.underway, sys, t.history⟩
      | (.going r', sys) => ⟨t.underway.set place r', sys, r.marks ++ t.history⟩
      | (.finished result, sys) =>
        ⟨t.underway.eraseIdx place, sys, .returned r.ticket r.ids result :: t.history⟩
  | .drop place =>
    match t.underway[place]? with
    | none => t
    | some r => ⟨t.underway.eraseIdx place, r.cancel t.system, .dropped r.ticket :: t.history⟩
  | .passTo now => ⟨t.underway, { t.system with now := now }, t.history⟩

/-- The traffic after all moves of a schedule. -/
def play (path : Path ι α) (t : Traffic ι α) (moves : List (Move ι)) : Traffic ι α :=
  moves.foldl (after path) t

omit [DecidableEq ι] in
/-- Time may pass elsewhere. -/
theorem elsewhere_passTo (lock : Nat) (own : List Layer) (sys : System ι α) (now : Nat) :
    Elsewhere lock own sys { sys with now := now } :=
  ⟨rfl, Nat.le_refl _, fun _ _ => rfl, fun _ _ => rfl, fun _ => rfl⟩

omit [DecidableEq ι] in
theorem eq_take_append_drop {underway : List (Resolution ι α)} {place : Nat} {r : Resolution ι α}
    (h : underway[place]? = some r) :
    underway = underway.take place ++ r :: underway.drop (place + 1) := by
  obtain ⟨hlt, hget⟩ := List.getElem?_eq_some_iff.1 h
  rw [← hget, List.getElem_cons_drop, List.take_append_drop]

/-- Every move is a step, or none. -/
theorem leads_after (htime : ∀ (sys : System ι α) now, elsewhere sys { sys with now := now })
    (t : Traffic ι α) {move : Move ι} (hadmits : ∀ ids, move = .begin ids → admits ids) :
    Leads path admits elsewhere t (t.after path move) := by
  obtain ⟨underway, sys, history⟩ := t
  cases move with
  | begin ids => exact .single (.begins (hadmits ids rfl))
  | passTo now => exact .single (.beside (htime sys now))
  | drop place =>
    simp only [after]
    split
    · exact .refl
    · rename_i r hr
      nth_rewrite 1 [eq_take_append_drop hr]
      rw [List.eraseIdx_eq_take_drop_succ]
      exact .single .drops
  | step place =>
    simp only [after]
    split
    · exact .refl
    · rename_i r hr
      have hlt := (List.getElem?_eq_some_iff.1 hr).1
      split
      · rename_i hs
        rw [eq_take_append_drop hr]
        exact .single (.waits hs)
      · rename_i hs
        nth_rewrite 1 [eq_take_append_drop hr]
        rw [List.set_eq_take_append_cons_drop, if_pos hlt]
        exact .single (.goes hs)
      · rename_i hs
        nth_rewrite 1 [eq_take_append_drop hr]
        rw [List.eraseIdx_eq_take_drop_succ]
        exact .single (.returns hs)

/-- **A schedule is one of the runs of traffic.** -/
theorem leads_play (htime : ∀ (sys : System ι α) now, elsewhere sys { sys with now := now })
    (t : Traffic ι α) {moves : List (Move ι)} (hadmits : ∀ ids, .begin ids ∈ moves → admits ids) :
    Leads path admits elsewhere t (t.play path moves) := by
  induction moves generalizing t with
  | nil => exact .refl
  | cons move rest ih =>
    have hfirst : Leads path admits elsewhere t (t.after path move) :=
      leads_after htime t fun ids h => hadmits ids (h ▸ List.mem_cons_self ..)
    exact hfirst.trans (ih (t.after path move) fun ids h => hadmits ids (List.mem_cons_of_mem _ h))

end Traffic

end Collate
