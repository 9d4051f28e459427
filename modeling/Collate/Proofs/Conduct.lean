/-
How the resolutions of a window conduct themselves.

Every call of an origin is written down, so what a resolution asks for can be told from the log.
Whatever a step does, it does to its own path alone: the path's lock, the stores of its layers, the
lines of its origin. So something that is checked for the steps of one resolution (`Conduct.Kept`)
holds of all those a window runs side by side, each on a path of its own, and that is said here once
for anything that may be checked.
-/
import Collate.Proofs.Traffic
import Collate.Proofs.Windows

set_option autoImplicit false

namespace Collate

variable {ι α : Type}

/-! ## 1. Calls that were written down -/

/-- The ids an origin was called with, if that is what happened. -/
def Occurrence.called? : Occurrence ι α → Option (List ι)
  | .sourceCalled ids => some ids
  | .fallbackCalled ids => some ids
  | _ => none

/-- The calls of the origin that has them written down in a bucket, the latest in front. -/
def callsIn (bucket : Nat) (lines : List (LogLine ι α)) : List (List ι) :=
  lines.filterMap fun line => if line.bucket = bucket then line.occurrence.called? else none

@[simp] theorem callsIn_nil (bucket : Nat) : callsIn bucket ([] : List (LogLine ι α)) = [] := rfl

@[simp] theorem callsIn_append (bucket : Nat) (xs ys : List (LogLine ι α)) :
    callsIn bucket (xs ++ ys) = callsIn bucket xs ++ callsIn bucket ys := List.filterMap_append

/-- Where the calls of an origin are written down. -/
def Origin.bucket : Origin ι α → Nat
  | .source _ bucket _ => bucket
  | .fallback bucket _ _ => bucket

/-- Calls of one bucket, and none of any other. -/
def only (bucket : Nat) (calls : List (List ι)) (n : Nat) : List (List ι) :=
  if n = bucket then calls else []

@[simp] theorem only_self (bucket : Nat) (calls : List (List ι)) :
    only bucket calls bucket = calls := if_pos rfl

theorem only_of_ne {bucket n : Nat} (h : n ≠ bucket) (calls : List (List ι)) :
    only bucket calls n = [] := if_neg h

namespace System

/-- Lines were written down, and among them these calls. -/
def Logs (calls : Nat → List (List ι)) (sys sys' : System ι α) : Prop :=
  ∃ lines, sys'.log = lines ++ sys.log ∧ ∀ bucket, callsIn bucket lines = calls bucket

/-- No call was written down. -/
def LogsNone (sys sys' : System ι α) : Prop := Logs (fun _ => []) sys sys'

variable {sys sys' sys'' : System ι α} {calls calls' : Nat → List (List ι)}

theorem LogsNone.of_same (h : sys'.log = sys.log) : LogsNone sys sys' := ⟨[], h, fun _ => rfl⟩

theorem Logs.trans (h : Logs calls sys sys') (h' : Logs calls' sys' sys'') :
    Logs (fun bucket => calls' bucket ++ calls bucket) sys sys'' := by
  obtain ⟨lines, hlog, hcalls⟩ := h
  obtain ⟨lines', hlog', hcalls'⟩ := h'
  refine ⟨lines' ++ lines, by rw [hlog', hlog, List.append_assoc], fun bucket => ?_⟩
  rw [callsIn_append, hcalls, hcalls']

theorem Logs.congr (h : Logs calls sys sys') (hcalls : ∀ bucket, calls bucket = calls' bucket) :
    Logs calls' sys sys' :=
  funext hcalls ▸ h

theorem LogsNone.trans (h : LogsNone sys sys') (h' : LogsNone sys' sys'') : LogsNone sys sys'' :=
  Logs.trans h h'

/-- Observers are not told of calls. -/
theorem LogsNone.tell (sys : System ι α) (observers : List Observer)
    {occurrence : String → Occurrence ι α} (hno : ∀ name, (occurrence name).called? = none) :
    LogsNone sys (sys.tell observers occurrence) := by
  induction observers generalizing sys with
  | nil => exact .of_same rfl
  | cons observer rest ih =>
    refine .trans ⟨[⟨observer.bucket, sys.now, occurrence observer.name⟩], rfl, fun bucket => ?_⟩
      (ih (sys.note observer.bucket (occurrence observer.name)))
    simp [callsIn, hno]

variable [DecidableEq ι]

theorem LogsNone.read (sys : System ι α) (layer : Layer) (ids : List ι) :
    LogsNone sys (sys.read layer ids).2 := by
  unfold System.read
  cases h : ((sys.stores.get layer.store).get ids).1 with
  | error cause =>
    rw [onStore_of_error h]
    exact .of_same rfl
  | ok hits =>
    rw [onStore_of_ok h]
    exact .trans (.of_same rfl) (.tell _ _ fun _ => rfl)

theorem LogsNone.write (sys : System ι α) (layer : Layer) (entries : Entries ι (List α)) :
    LogsNone sys (sys.write layer entries).2 := by
  unfold System.write
  cases h : ((sys.stores.get layer.store).put entries).1 with
  | error cause =>
    rw [onStore_of_error h]
    exact .of_same rfl
  | ok _ =>
    rw [onStore_of_ok h]
    exact .trans (.of_same rfl) (.tell _ _ fun _ => rfl)

/-- Asking an origin is one call of it. -/
theorem Logs.ask (sys : System ι α) (origin : Origin ι α) (ids : List ι) :
    Logs (only origin.bucket [ids]) sys (sys.ask origin ids).2 := by
  have hline : ∀ (n : Nat) (occurrence : Occurrence ι α), occurrence.called? = some ids →
      ∀ bucket, callsIn bucket [⟨n, sys.now, occurrence⟩] = only n [ids] bucket := by
    intro n occurrence hcalled bucket
    by_cases hn : bucket = n
    · simp [callsIn, only, hn, hcalled]
    · simp [callsIn, only, hn, Ne.symm hn]
  cases origin with
  | source number bucket key => exact ⟨[_], rfl, hline _ _ rfl⟩
  | fallback bucket delay answer => exact ⟨[_], rfl, hline _ _ rfl⟩

end System

/-! ## 2. What a resolution keeps to -/

namespace Resolution

theorem log_release (sys : System ι α) (lock ticket : Nat) :
    (sys.release lock ticket).log = sys.log := by
  obtain ⟨ready, _, h⟩ := System.release_eq sys lock ticket
  rw [h]

theorem log_cancel (r : Resolution ι α) (sys : System ι α) : (r.cancel sys).log = sys.log := by
  obtain ⟨feeds, ready, _, h⟩ := r.cancel_eq sys
  rw [h]

variable [DecidableEq ι] {r r' : Resolution ι α} {sys sys' : System ι α}
  {p : Progress (Resolution ι α) (Except Error (Entries ι (List α)))}

theorem logsNone_lookup {l : Lookup ι} {q : Progress (Lookup ι) (Except Error (Found ι α))}
    (h : l.Stepped sys q sys') : System.LogsNone sys sys' := by
  cases h with
  | stalls | watches | passes | refused => exact .of_same rfl
  | reads hw => exact .read _ _ _

theorem logs_walk {origin : Origin ι α} {walk : Walk ι α}
    {q : Progress (Walk ι α) (Except Error (Entries ι (List α)))}
    (h : Walk.Stepped origin walk sys q sys') :
    System.Logs (only origin.bucket walk.asks.toList) sys sys' := by
  have hnone : walk.asks = none → System.LogsNone sys sys' →
      System.Logs (only origin.bucket walk.asks.toList) sys sys' := by
    intro hasks hlogs
    refine hlogs.congr fun bucket => ?_
    rw [hasks, only]
    split <;> rfl
  cases h with
  | stalls h | looks h | unread h | found h hm | missed h hm => exact hnone rfl (logsNone_lookup h)
  | spared | waits | failed | answered | done => exact hnone rfl (.of_same rfl)
  | asked hids =>
    rw [Walk.asks_asking hids]
    exact .ask sys origin _
  | unwritten | written => exact hnone rfl (.write _ _ _)

/-- **What a step writes down of calls is what it asks for.** -/
theorem Stepped.logs (h : r.Stepped sys p sys') :
    System.Logs (only r.path.origin.bucket r.asks.toList) sys sys' := by
  have hnone : r.asks = none → System.LogsNone sys sys' →
      System.Logs (only r.path.origin.bucket r.asks.toList) sys sys' := by
    intro hasks hlogs
    refine hlogs.congr fun bucket => ?_
    rw [hasks, only]
    split <;> rfl
  have hrelease : ∀ {sys'' : System ι α}, System.LogsNone sys sys'' →
      System.LogsNone sys (sys''.release r.path.lock r.ticket) :=
    fun hlogs => hlogs.trans (.of_same (log_release _ _ _))
  have hwalk : ∀ {walk : Walk ι α}, r.phase = .walking walk → r.asks = walk.asks := by
    intro walk hp
    rw [asks, hp]
  cases h with
  | queues hp | shares hp | overshoots hp | lingers hp | enters hp =>
    exact hnone (by rw [asks, hp]) (.of_same rfl)
  | stalls hp h | looks hp h => exact hnone (by rw [asks, hp]) (logsNone_lookup h)
  | unread hp h | found hp h | missed hp h =>
    exact hnone (by rw [asks, hp]) (hrelease (logsNone_lookup h))
  | rests hp h | walks hp h =>
    rw [hwalk hp]
    exact logs_walk h
  | ends hp h =>
    rw [hwalk hp]
    exact ((logs_walk h).trans (System.LogsNone.of_same (log_release _ _ _))).congr fun _ => rfl

/-- Only a step that goes on asks for something. -/
theorem Stepped.asks_eq_none (h : r.Stepped sys p sys') (hgo : ∀ r', p ≠ .going r') :
    r.asks = none := by
  cases h with
  | shares | overshoots | looks | missed | enters | walks => exact absurd rfl (hgo _)
  | queues hp | lingers hp | stalls hp | unread hp | found hp => rw [asks, hp]
  | rests hp h =>
    rw [asks, hp]
    cases h <;> rfl
  | ends hp h =>
    rw [asks, hp]
    cases h <;> rfl

end Resolution

variable [DecidableEq ι]

/-- What happens along a path reaches its lock, the stores of its layers and the lines of its origin,
among which are these calls. -/
structure Path.KeepsTo (path : Path ι α) (calls : List (List ι)) (sys sys' : System ι α) : Prop where
  advanced : System.Advanced path.layers sys sys'
  locks : ∀ n, n ≠ path.lock → sys'.locks.get n = sys.locks.get n
  logs : System.Logs (only path.origin.bucket calls) sys sys'

namespace Path.KeepsTo

variable {path : Path ι α} {calls calls' : List (List ι)} {sys sys' sys'' : System ι α}

omit [DecidableEq ι] in
theorem refl (path : Path ι α) (sys : System ι α) : path.KeepsTo [] sys sys :=
  ⟨.refl _ _, fun _ _ => rfl, [], rfl, fun bucket => by simp [only]⟩

omit [DecidableEq ι] in
theorem trans (h : path.KeepsTo calls sys sys') (h' : path.KeepsTo calls' sys' sys'') :
    path.KeepsTo (calls' ++ calls) sys sys'' := by
  refine ⟨h.advanced.trans h'.advanced, fun n hn => (h'.locks n hn).trans (h.locks n hn),
    (h.logs.trans h'.logs).congr fun bucket => ?_⟩
  unfold only
  split <;> rfl

theorem of_stepped {r : Resolution ι α}
    {p : Progress (Resolution ι α) (Except Error (Entries ι (List α)))} (hr : r.Regular)
    (h : r.Stepped sys p sys') : r.path.KeepsTo r.asks.toList sys sys' :=
  ⟨h.advanced hr, fun _ hn => h.other_locks hn, h.logs⟩

end Path.KeepsTo

/-! ## 3. Conduct -/

/-- Something that may be checked of resolutions: what is known of one under way, in the shared state
and after its calls so far; what is known of its path when it has ended well; and what is known of its
calls when it has failed. -/
structure Conduct (ι α : Type) where
  going : Resolution ι α → System ι α → List (List ι) → Prop
  done : Path ι α → System ι α → List (List ι) → Prop
  failed : List (List ι) → Prop

/-- What happens on a path apart from this one, or elsewhere. -/
inductive Aside (apart : Path ι α → Path ι α → Prop) (elsewhere : System ι α → System ι α → Prop)
    (path : Path ι α) (sys sys' : System ι α) : Prop where
  | along {other : Path ι α} {calls : List (List ι)} (hapart : apart path other)
      (h : other.KeepsTo calls sys sys')
  | elsewhere (h : elsewhere sys sys')

/-- Every step keeps the conduct, and so does what happens aside. -/
structure Conduct.Kept (c : Conduct ι α) (apart : Path ι α → Path ι α → Prop)
    (elsewhere : System ι α → System ι α → Prop) : Prop where
  symm : ∀ {path other}, apart path other → apart other path
  buckets : ∀ {path other}, apart path other → path.origin.bucket ≠ other.origin.bucket
  goes : ∀ {r r' sys sys' calls}, r.Regular → c.going r sys calls →
    r.Stepped sys (.going r') sys' → c.going r' sys' (r.asks.toList ++ calls)
  waits : ∀ {r sys sys' calls}, r.Regular → c.going r sys calls → r.Stepped sys .blocked sys' →
    c.going r sys' calls
  ends : ∀ {r sys sys' calls grouped}, r.Regular → c.going r sys calls →
    r.Stepped sys (.finished (.ok grouped)) sys' → c.done r.path sys' calls
  fails : ∀ {r sys sys' calls e}, r.Regular → c.going r sys calls →
    r.Stepped sys (.finished (.error e)) sys' → c.failed calls
  going_aside : ∀ {r sys sys' calls}, c.going r sys calls → Aside apart elsewhere r.path sys sys' →
    c.going r sys' calls
  done_aside : ∀ {path sys sys' calls}, c.done path sys calls →
    Aside apart elsewhere path sys sys' → c.done path sys' calls

/-- The next step finds nothing to do. -/
def Resolution.Stuck (r : Resolution ι α) (sys : System ι α) : Prop :=
  ∃ sys', r.Stepped sys .blocked sys'

namespace Conduct

variable {c : Conduct ι α} {apart : Path ι α → Path ι α → Prop}
  {elsewhere : System ι α → System ι α → Prop} {r r' : Resolution ι α} {sys sys' : System ι α}
  {calls : List (List ι)}

/-- What is known of a resolution after it was run. -/
def Came (c : Conduct ι α) (r : Resolution ι α) (sys : System ι α) (calls : List (List ι)) :
    Standing (Resolution ι α) (Except Error (Entries ι (List α))) × System ι α → Prop
  | (.waiting r', sys') => r'.path = r.path ∧ r'.Regular ∧ c.going r' sys' calls
    ∧ (r'.left < r.left ∨ r' = r ∧ r.Stuck sys)
  | (.finished (.ok _), sys') => c.done r.path sys' calls
  | (.finished (.error _), _) => c.failed calls

private theorem Kept.of_leads (h : c.Kept apart elsewhere) (hr : r.Regular)
    (hg : c.going r sys calls)
    (hl : Relation.ReflTransGen (Leads Resolution.step) (r, sys) (r', sys')) :
    ∃ new, r.path.KeepsTo new sys sys' ∧ r'.path = r.path ∧ r'.Regular
      ∧ c.going r' sys' (new ++ calls) ∧ (r'.left < r.left ∨ r' = r ∧ sys' = sys) := by
  generalize hb : (r', sys') = b at hl
  induction hl generalizing r' sys' with
  | refl =>
    obtain ⟨rfl, rfl⟩ := Prod.mk.inj hb
    exact ⟨[], .refl _ _, rfl, hr, hg, Or.inr ⟨rfl, rfl⟩⟩
  | @tail d _ _ hstep ih =>
    obtain ⟨r₁, sys₁⟩ := d
    obtain rfl := hb
    obtain ⟨new, hkeeps, hpath, hr₁, hg₁, hleft⟩ := ih rfl
    have hs := r₁.stepped sys₁
    rw [show r₁.step sys₁ = (.going r', sys') from hstep] at hs
    obtain ⟨⟨phase, rfl⟩, hr', hless⟩ := hs.going hr₁
    have hkeeps' := Path.KeepsTo.of_stepped hr₁ hs
    rw [hpath] at hkeeps'
    refine ⟨r₁.asks.toList ++ new, hkeeps.trans hkeeps', hpath, hr', ?_, Or.inl ?_⟩
    · rw [List.append_assoc]
      exact h.goes hr₁ hg₁ hs
    · rcases hleft with hlt | ⟨rfl, _⟩
      · exact Nat.lt_trans hless hlt
      · exact hless

/-- **Running a resolution** keeps its conduct, and it keeps to its path. -/
theorem Kept.run (h : c.Kept apart elsewhere) (hr : r.Regular) (hg : c.going r sys calls) :
    ∃ new, r.path.KeepsTo new sys (r.run sys).2 ∧ c.Came r sys (new ++ calls) (r.run sys) := by
  obtain ⟨r₁, sys₁, hleads, hend⟩ := Resolution.run_ends hr sys
  obtain ⟨new, hkeeps, hpath, hr₁, hg₁, hleft⟩ := h.of_leads hr hg hleads
  -- One step more, which blocks or is the last; neither of these asks for anything.
  have hs := r₁.stepped sys₁
  rcases hend with ⟨sys₂, hstep, hrun⟩ | ⟨result, sys₂, hstep, hrun⟩
  · rw [hstep] at hs
    have hkeeps' := Path.KeepsTo.of_stepped hr₁ hs
    rw [hpath, hs.asks_eq_none (by simp)] at hkeeps'
    rw [hrun]
    refine ⟨new, hkeeps.trans hkeeps', hpath, hr₁, h.waits hr₁ hg₁ hs, hleft.imp_right ?_⟩
    rintro ⟨rfl, rfl⟩
    exact ⟨rfl, _, hs⟩
  · rw [hstep] at hs
    have hkeeps' := Path.KeepsTo.of_stepped hr₁ hs
    rw [hpath, hs.asks_eq_none (by simp)] at hkeeps'
    rw [hrun]
    refine ⟨new, hkeeps.trans hkeeps', ?_⟩
    cases result with
    | ok grouped =>
      have hdone := h.ends hr₁ hg₁ hs
      rw [hpath] at hdone
      exact hdone
    | error e => exact h.fails hr₁ hg₁ hs

/-! ## 4. Branches -/

/-- The conduct of the resolution along a path, whether it is under way or has answered. -/
def Holds (c : Conduct ι α) (path : Path ι α) (sys : System ι α) (calls : List (List ι)) :
    Branch ι α → Prop
  | .pending r => r.path = path ∧ r.Regular ∧ c.going r sys calls
  | .resolved _ => c.done path sys calls

/-- A resolution of this conduct that is stuck. -/
def Halts (c : Conduct ι α) (r : Resolution ι α) (sys : System ι α) : Prop :=
  r.Regular ∧ r.Stuck sys ∧ ∃ calls, c.going r sys calls

/-- What is known of the calls along a path when a window has failed. -/
def Stopped (c : Conduct ι α) (calls : List (List ι)) : Prop :=
  c.failed calls ∨ ∃ path sys branch, c.Holds path sys calls branch

/-- One thing after the other happens along some paths. -/
def Along (paths : List (Path ι α)) : System ι α → System ι α → Prop :=
  Relation.ReflTransGen fun sys sys' => ∃ path ∈ paths, ∃ calls, path.KeepsTo calls sys sys'

theorem Holds.aside {path : Path ι α} {branch : Branch ι α} (hb : c.Holds path sys calls branch)
    (h : c.Kept apart elsewhere) (ha : Aside apart elsewhere path sys sys') :
    c.Holds path sys' calls branch := by
  cases branch with
  | pending r =>
    obtain ⟨rfl, hr, hg⟩ := hb
    exact ⟨rfl, hr, h.going_aside hg ha⟩
  | resolved grouped => exact h.done_aside hb ha

theorem Holds.along {path : Path ι α} {paths : List (Path ι α)} {branch : Branch ι α}
    (hb : c.Holds path sys calls branch) (h : c.Kept apart elsewhere)
    (hapart : ∀ other ∈ paths, apart path other) (ha : Along paths sys sys') :
    c.Holds path sys' calls branch := by
  induction ha with
  | refl => exact hb
  | tail _ hstep ih =>
    obtain ⟨other, ho, calls', hkeeps⟩ := hstep
    exact ih.aside h (.along (hapart other ho) hkeeps)

/-- What is known of a window's branches after they were run. If they have not come further, they are
stuck at this moment. -/
def Turned (c : Conduct ι α) (paths : List (Path ι α)) (calls : Nat → List (List ι))
    (branches : List (Branch ι α)) (sys : System ι α) :
    Except (Error × List (Branch ι α)) (List (Branch ι α)) × System ι α → Prop
  | (.ok branches', sys') =>
    List.Forall₂ (fun path branch => c.Holds path sys' (calls path.origin.bucket) branch)
      paths branches'
    ∧ (Branch.left branches' < Branch.left branches ∨ branches' = branches
      ∧ ∀ r, .pending r ∈ branches →
        ∃ sys₁, sys₁.now = sys.now ∧ c.Halts r sys₁)
  | (.error _, _) => (∀ path ∈ paths, c.Stopped (calls path.origin.bucket))
    ∧ ∃ path ∈ paths, c.failed (calls path.origin.bucket)

omit [DecidableEq ι] in
theorem left_cons (head : Branch ι α) (branches : List (Branch ι α)) :
    Branch.left (head :: branches) = Branch.left [head] + Branch.left branches := by
  cases head <;> simp [Branch.left]

section Turned

variable {path : Path ι α} {paths : List (Path ι α)} {calls calls' : Nat → List (List ι)}
  {head head' : Branch ι α} {branches branches' left left' : List (Branch ι α)} {sys₁ : System ι α}
  {e : Error}

theorem Turned.congr {out : Except (Error × List (Branch ι α)) (List (Branch ι α)) × System ι α}
    (h : c.Turned paths calls branches sys out)
    (hcalls : ∀ path ∈ paths, calls path.origin.bucket = calls' path.origin.bucket) :
    c.Turned paths calls' branches sys out := by
  rcases out with ⟨⟨e, left⟩ | branches', sys'⟩
  · obtain ⟨hstopped, failing, hmem, hfailed⟩ := h
    exact ⟨fun path hp => hcalls path hp ▸ hstopped path hp, failing, hmem,
      hcalls failing hmem ▸ hfailed⟩
  · refine ⟨?_, h.2⟩
    exact ((List.forall₂_and_left _ _).2 ⟨hcalls, h.1⟩).imp fun path branch hb => hb.1 ▸ hb.2

/-- One more branch in front, which was run before. -/
theorem Turned.cons (h : c.Turned paths calls branches sys₁ (.ok branches', sys'))
    (hnow : sys₁.now = sys.now) (hhead : c.Holds path sys' (calls path.origin.bucket) head')
    (hfurther : Branch.left [head'] < Branch.left [head] ∨ head' = head
      ∧ ∀ r, head = .pending r → c.Halts r sys) :
    c.Turned (path :: paths) calls (head :: branches) sys (.ok (head' :: branches'), sys') := by
  refine ⟨.cons hhead h.1, ?_⟩
  rw [left_cons head', left_cons head]
  rcases hfurther with hlt | ⟨rfl, hstuck⟩ <;> rcases h.2 with hlt' | ⟨rfl, hstuck'⟩
  · exact Or.inl (Nat.add_lt_add hlt hlt')
  · exact Or.inl (Nat.add_lt_add_right hlt _)
  · exact Or.inl (Nat.add_lt_add_left hlt' _)
  · refine Or.inr ⟨rfl, fun r hr => ?_⟩
    rcases List.mem_cons.1 hr with hr | hr
    · exact ⟨sys, rfl, hstuck r hr.symm⟩
    · obtain ⟨sys₂, hnow₂, hhalts⟩ := hstuck' r hr
      exact ⟨sys₂, hnow₂.trans hnow, hhalts⟩

theorem Turned.cons_error (h : c.Turned paths calls branches sys₁ (.error (e, left), sys'))
    (hhead : c.Holds path sys' (calls path.origin.bucket) head') :
    c.Turned (path :: paths) calls (head :: branches) sys (.error (e, left'), sys') := by
  obtain ⟨hstopped, failing, hmem, hfailed⟩ := h
  exact ⟨List.forall_mem_cons.2 ⟨Or.inr ⟨_, _, _, hhead⟩, hstopped⟩, failing,
    List.mem_cons_of_mem _ hmem, hfailed⟩

end Turned

/-- What running the branches of a window comes to: the calls that were made meanwhile, all of them
along the window's paths, and what is known of the branches then. -/
structure RanAll (c : Conduct ι α) (paths : List (Path ι α)) (old : Nat → List (List ι))
    (branches : List (Branch ι α)) (sys : System ι α) (calls : Nat → List (List ι))
    (out : Except (Error × List (Branch ι α)) (List (Branch ι α)) × System ι α) : Prop where
  logs : System.Logs calls sys out.2
  none : ∀ bucket, (∀ path ∈ paths, path.origin.bucket ≠ bucket) → calls bucket = []
  along : Along paths sys out.2
  turned : c.Turned paths (fun bucket => calls bucket ++ old bucket) branches sys out

section RanAll

variable {path : Path ι α} {paths : List (Path ι α)} {old calls : Nat → List (List ι)}
  {new : List (List ι)} {head head' : Branch ι α} {branches branches' left left' : List (Branch ι α)}
  {sys₁ : System ι α} {e : Error}
  {out : Except (Error × List (Branch ι α)) (List (Branch ι α)) × System ι α}

/-- A path in front was used before: its calls are those made then, and no others. -/
theorem RanAll.front (hran : c.RanAll paths old branches sys₁ calls out)
    (h : c.Kept apart elsewhere) (hothers : ∀ other ∈ paths, apart path other)
    (hkeeps : path.KeepsTo new sys sys₁) :
    ∃ calls', calls' path.origin.bucket = new
      ∧ (∀ other ∈ paths, calls other.origin.bucket = calls' other.origin.bucket)
      ∧ System.Logs calls' sys out.2
      ∧ (∀ bucket, (∀ other ∈ path :: paths, other.origin.bucket ≠ bucket) → calls' bucket = [])
      ∧ Along (path :: paths) sys out.2 := by
  have hbuckets : ∀ other ∈ paths, other.origin.bucket ≠ path.origin.bucket :=
    fun other ho => (h.buckets (hothers other ho)).symm
  have hlater : Along (path :: paths) sys₁ out.2 :=
    Relation.ReflTransGen.mono
      (fun _ _ ⟨other, ho, hk⟩ => ⟨other, List.mem_cons_of_mem _ ho, hk⟩) _ _ hran.along
  refine ⟨_, ?_, fun other ho => ?_, hkeeps.logs.trans hran.logs, fun bucket hb => ?_,
    hlater.head ⟨path, List.mem_cons_self .., new, hkeeps⟩⟩
  · simp [only, hran.none _ hbuckets]
  · simp [only, hbuckets other ho]
  · obtain ⟨hpath, hpaths⟩ := List.forall_mem_cons.1 hb
    simp [only, hran.none _ hpaths, hpath.symm]

theorem RanAll.cons (hran : c.RanAll paths old branches sys₁ calls (.ok branches', sys'))
    (h : c.Kept apart elsewhere) (hothers : ∀ other ∈ paths, apart path other)
    (hkeeps : path.KeepsTo new sys sys₁)
    (hhead : c.Holds path sys₁ (new ++ old path.origin.bucket) head')
    (hfurther : Branch.left [head'] < Branch.left [head] ∨ head' = head
      ∧ ∀ r, head = .pending r → c.Halts r sys) :
    ∃ calls', c.RanAll (path :: paths) old (head :: branches) sys calls'
      (.ok (head' :: branches'), sys') := by
  obtain ⟨calls', hown, hsame, hlogs, hnone, halong⟩ := hran.front h hothers hkeeps
  have hturned : c.Turned paths (fun bucket => calls' bucket ++ old bucket) branches sys₁ _ :=
    hran.turned.congr fun other ho => congrArg (· ++ old other.origin.bucket) (hsame other ho)
  refine ⟨calls', hlogs, hnone, halong, hturned.cons hkeeps.advanced.now ?_ hfurther⟩
  rw [hown]
  exact hhead.along h hothers hran.along

theorem RanAll.cons_error (hran : c.RanAll paths old branches sys₁ calls (.error (e, left), sys'))
    (h : c.Kept apart elsewhere) (hothers : ∀ other ∈ paths, apart path other)
    (hkeeps : path.KeepsTo new sys sys₁)
    (hhead : c.Holds path sys₁ (new ++ old path.origin.bucket) head') :
    ∃ calls', c.RanAll (path :: paths) old (head :: branches) sys calls'
      (.error (e, left'), sys') := by
  obtain ⟨calls', hown, hsame, hlogs, hnone, halong⟩ := hran.front h hothers hkeeps
  have hturned : c.Turned paths (fun bucket => calls' bucket ++ old bucket) branches sys₁ _ :=
    hran.turned.congr fun other ho => congrArg (· ++ old other.origin.bucket) (hsame other ho)
  rw [← hown] at hhead
  exact ⟨calls', hlogs, hnone, halong, hturned.cons_error (hhead.along h hothers hran.along)⟩

omit [DecidableEq ι] in
theorem exists_of_forall₂ {R : Path ι α → Branch ι α → Prop} (h : List.Forall₂ R paths branches) :
    ∀ path ∈ paths, ∃ branch, R path branch := by
  induction h with
  | nil => simp
  | cons hhead _ ih => exact List.forall_mem_cons.2 ⟨⟨_, hhead⟩, ih⟩

/-- The branch in front has failed, and those behind it are not run. -/
theorem RanAll.fail (h : c.Kept apart elsewhere) (hothers : ∀ other ∈ paths, apart path other)
    (hkeeps : path.KeepsTo new sys sys')
    (hfailed : c.failed (new ++ old path.origin.bucket))
    (hrest : List.Forall₂ (fun path branch => c.Holds path sys (old path.origin.bucket) branch)
      paths branches) :
    ∃ calls, c.RanAll (path :: paths) old (head :: branches) sys calls (.error (e, left), sys') := by
  have hown : c.failed (only path.origin.bucket new path.origin.bucket
      ++ old path.origin.bucket) := by
    rw [only_self]
    exact hfailed
  refine ⟨only path.origin.bucket new, hkeeps.logs, fun bucket hb => ?_,
    .single ⟨path, List.mem_cons_self .., new, hkeeps⟩,
    List.forall_mem_cons.2 ⟨Or.inl hown, fun other ho => ?_⟩, path, List.mem_cons_self .., hown⟩
  · exact only_of_ne (hb path (List.mem_cons_self ..)).symm _
  · obtain ⟨branch, hb⟩ := exists_of_forall₂ hrest other ho
    refine Or.inr ⟨other, sys, branch, ?_⟩
    simp only [only_of_ne (h.buckets (hothers other ho)).symm]
    exact hb

/-- **Running the branches of a window** keeps the conduct of each of them: a branch that is run finds
the others' paths as they were, and leaves them so. -/
theorem Kept.runAll (h : c.Kept apart elsewhere) (hapart : paths.Pairwise apart)
    (old : Nat → List (List ι))
    (hs : List.Forall₂ (fun path branch => c.Holds path sys (old path.origin.bucket) branch)
      paths branches) :
    ∃ calls, c.RanAll paths old branches sys calls (Branch.runAll branches sys) := by
  induction paths generalizing branches sys with
  | nil =>
    cases hs
    exact ⟨fun _ => [], ⟨[], rfl, fun _ => rfl⟩, fun _ _ => rfl, .refl, .nil, Or.inr ⟨rfl, by simp⟩⟩
  | cons path paths ih =>
    obtain ⟨hothers, hpaths⟩ := List.pairwise_cons.1 hapart
    cases hs with | @cons _ head _ branches hhead hrest =>
    -- Those behind find their paths as they were.
    have hbehind : ∀ {new sys₁}, path.KeepsTo new sys sys₁ →
        ∃ calls, c.RanAll paths old branches sys₁ calls (Branch.runAll branches sys₁) := by
      intro new sys₁ hkeeps
      refine ih hpaths (((List.forall₂_and_left _ _).2 ⟨hothers, hrest⟩).imp ?_)
      exact fun other branch hb => hb.2.aside h (.along (h.symm hb.1) hkeeps)
    cases head with
    | resolved grouped =>
      obtain ⟨calls, hran⟩ := hbehind (.refl path sys)
      rcases hrun : Branch.runAll branches sys with ⟨⟨e, left⟩ | branches', sys'⟩ <;>
        rw [hrun] at hran <;> simp only [Branch.runAll, hrun]
      · exact hran.cons_error h hothers (.refl path sys) hhead
      · exact hran.cons h hothers (.refl path sys) hhead (Or.inr ⟨rfl, by simp⟩)
    | pending r =>
      obtain ⟨rfl, hr, hg⟩ := hhead
      obtain ⟨new, hkeeps, hcame⟩ := h.run hr hg
      obtain ⟨calls, hran⟩ := hbehind hkeeps
      rcases hresult : r.run sys with ⟨r' | (e | grouped), sys₁⟩ <;>
        rw [hresult] at hkeeps hcame hran
      · obtain ⟨hpath, hr', hg', hleft⟩ := hcame
        have hhead : c.Holds r.path sys₁ (new ++ old r.path.origin.bucket) (.pending r') :=
          ⟨hpath, hr', hg'⟩
        rcases hrun : Branch.runAll branches sys₁ with ⟨⟨e, left⟩ | branches', sys'⟩ <;>
          rw [hrun] at hran <;> simp only [Branch.runAll, hresult, hrun]
        · exact hran.cons_error h hothers hkeeps hhead
        · refine hran.cons h hothers hkeeps hhead (hleft.imp id ?_)
          rintro ⟨rfl, hstuck⟩
          refine ⟨rfl, fun x hx => ?_⟩
          cases hx
          exact ⟨hr, hstuck, _, hg⟩
      · simp only [Branch.runAll, hresult]
        exact RanAll.fail h hothers hkeeps hcame hrest
      · have hhead : c.Holds r.path sys₁ (new ++ old r.path.origin.bucket) (.resolved grouped) :=
          hcame
        rcases hrun : Branch.runAll branches sys₁ with ⟨⟨e, left⟩ | branches', sys'⟩ <;>
          rw [hrun] at hran <;> simp only [Branch.runAll, hresult, hrun]
        · exact hran.cons_error h hothers hkeeps hhead
        · exact hran.cons h hothers hkeeps hhead (Or.inl r.left_pos)

end RanAll

end Conduct

end Collate
