import ModelHost.Proofs.Host.Requests

/-!
Models and contexts over the life of a host. A host holds at most one model, opens at most one
context from it, and lets go of both, the context first, before it loads anything else. What happens
to models and contexts therefore is one lease after the other, and when the host goes nothing is
left. Each moment of a life is in one of four stages, and an operation leads from the stage of the
resident model before it to the stage of the resident model after it.
-/

namespace ModelHost

/-- Says whether an event makes or takes away a model or a context, or fails to make a context.
A load that fails makes nothing. -/
def Event.ofHandle : Event → Bool
  | .load _ _ loaded => loaded
  | .openContext .. | .closeContext _ | .unload _ => true
  | .call _ => false

/-- The models and the contexts that there are, each by the weights it comes from. -/
structure Handles where
  models : List Path := []
  contexts : List Path := []
deriving DecidableEq, Repr

namespace Handles

def after (h : Handles) : Event → Handles
  | .load weights _ true => { h with models := weights :: h.models }
  | .openContext weights _ true => { h with contexts := weights :: h.contexts }
  | .closeContext weights => { h with contexts := h.contexts.erase weights }
  | .unload weights => { h with models := h.models.erase weights }
  | .load _ _ false | .openContext _ _ false | .call _ => h

def ofEvents (events : List Event) : Handles := events.foldl after {}

end Handles

structure Lease where
  weights : Path
  gpuLayers : Option UInt32
  options : ContextOptions
  opened : Bool

namespace Lease

def opening (l : Lease) : List Event :=
  [.load l.weights l.gpuLayers true, .openContext l.weights l.options l.opened]

def ending (l : Lease) : List Event :=
  if l.opened then [.closeContext l.weights, .unload l.weights] else [.unload l.weights]

def events (l : Lease) : List Event := l.opening ++ l.ending

end Lease

inductive Stage where
  | free
  | loaded (weights : Path) (gpuLayers : Option UInt32)
  | opened (weights : Path) (gpuLayers : Option UInt32) (options : ContextOptions)
  /-- Only the model is left to go. -/
  | closed (lease : Lease)

namespace Stage

inductive Step : Stage → Event → Stage → Prop where
  | load {weights layers} : Step .free (.load weights layers true) (.loaded weights layers)
  | notLoaded {weights layers} : Step .free (.load weights layers false) .free
  | openContext {weights layers options} :
    Step (.loaded weights layers) (.openContext weights options true)
      (.opened weights layers options)
  | notOpened {weights layers options} :
    Step (.loaded weights layers) (.openContext weights options false)
      (.closed ⟨weights, layers, options, false⟩)
  | call {weights layers options call} :
    Step (.opened weights layers options) (.call call) (.opened weights layers options)
  | closeContext {weights layers options} :
    Step (.opened weights layers options) (.closeContext weights)
      (.closed ⟨weights, layers, options, true⟩)
  | unload {lease} : Step (.closed lease) (.unload lease.weights) .free

inductive Run : Stage → List Event → Stage → Prop where
  | nil {s} : Run s [] s
  | cons {s t u e events} (hstep : Step s e t) (hrest : Run t events u) : Run s (e :: events) u

def begun : Stage → List Event
  | .free => []
  | .loaded weights layers => [.load weights layers true]
  | .opened weights layers options => [.load weights layers true, .openContext weights options true]
  | .closed lease => lease.opening ++ if lease.opened then [.closeContext lease.weights] else []

def handles : Stage → Handles
  | .free => {}
  | .loaded weights _ => { models := [weights] }
  | .opened weights _ _ => { models := [weights], contexts := [weights] }
  | .closed lease => { models := [lease.weights] }

private theorem Step.handles {s t : Stage} {e : Event} (h : Step s e t) :
    s.handles.after e = t.handles := by
  cases h <;> simp [Stage.handles, Handles.after]

/-- In no stage are there two models or two contexts, or a context without its model. -/
private theorem handles_bounds (s : Stage) :
    s.handles.models.length ≤ 1 ∧ s.handles.contexts.length ≤ 1 ∧
      s.handles.contexts ⊆ s.handles.models := by
  cases s <;> simp [handles]

private theorem Step.begun {s t : Stage} {e : Event} (h : Step s e t) :
    ∃ leases : List Lease,
      s.begun ++ [e].filter Event.ofHandle = leases.flatMap Lease.events ++ t.begun := by
  cases h with
  | @unload lease =>
    refine ⟨[lease], ?_⟩
    cases hopened : lease.opened <;>
      simp [Stage.begun, Event.ofHandle, Lease.events, Lease.ending, hopened]
  | load | notLoaded | openContext | notOpened | call | closeContext =>
    exact ⟨[], by simp [Stage.begun, Event.ofHandle, Lease.opening]⟩

namespace Run

variable {s t u : Stage} {events more : List Event}

theorem append (h : Run s events t) (hmore : Run t more u) : Run s (events ++ more) u := by
  induction h with
  | nil => exact hmore
  | cons hstep _ ih => exact .cons hstep (ih hmore)

private theorem exists_of_append (h : Run s (events ++ more) u) :
    ∃ t, Run s events t ∧ Run t more u := by
  induction events generalizing s with
  | nil => exact ⟨s, .nil, h⟩
  | cons e events ih =>
    cases h with
    | cons hstep hrest =>
      obtain ⟨t, hevents, hmore⟩ := ih hrest
      exact ⟨t, .cons hstep hevents, hmore⟩

theorem handles (h : Run s events t) : events.foldl Handles.after s.handles = t.handles := by
  induction h with
  | nil => rfl
  | cons hstep _ ih => rw [List.foldl_cons, hstep.handles, ih]

theorem leases (h : Run s events t) :
    ∃ leases : List Lease,
      s.begun ++ events.filter Event.ofHandle = leases.flatMap Lease.events ++ t.begun := by
  induction h with
  | nil => exact ⟨[], by simp⟩
  | @cons s t u e events hstep _ ih =>
    obtain ⟨first, hfirst⟩ := hstep.begun
    obtain ⟨rest, hrest⟩ := ih
    refine ⟨first ++ rest, ?_⟩
    calc s.begun ++ (e :: events).filter Event.ofHandle
      _ = (s.begun ++ [e].filter Event.ofHandle) ++ events.filter Event.ofHandle := by
        rw [← List.singleton_append, List.filter_append, List.append_assoc]
      _ = first.flatMap Lease.events ++ (t.begun ++ events.filter Event.ofHandle) := by
        rw [hfirst, List.append_assoc]
      _ = (first ++ rest).flatMap Lease.events ++ u.begun := by
        rw [hrest, List.flatMap_append, List.append_assoc]

end Run

end Stage

structure Orderly (life : List Event) : Prop where
  leases : ∃ leases : List Lease, life.filter Event.ofHandle = leases.flatMap Lease.events
  oneModel : ∀ past, past <+: life → (Handles.ofEvents past).models.length ≤ 1
  oneContext : ∀ past, past <+: life → (Handles.ofEvents past).contexts.length ≤ 1
  /-- A context is there only as long as its model is. -/
  within : ∀ past, past <+: life → (Handles.ofEvents past).contexts ⊆ (Handles.ofEvents past).models
  /-- Before any load, everything is let go of. -/
  beforeLoad : ∀ past weights layers loaded, past ++ [.load weights layers loaded] <+: life →
    Handles.ofEvents past = {}
  nothingLeft : Handles.ofEvents life = {}

theorem Orderly.of_run {life : List Event} (h : Stage.Run .free life .free) : Orderly life := by
  have hbounds : ∀ past, past <+: life →
      (Handles.ofEvents past).models.length ≤ 1 ∧ (Handles.ofEvents past).contexts.length ≤ 1 ∧
        (Handles.ofEvents past).contexts ⊆ (Handles.ofEvents past).models := by
    rintro past ⟨rest, rfl⟩
    obtain ⟨s, hpast, -⟩ := h.exists_of_append
    have hhandles : Handles.ofEvents past = s.handles := hpast.handles
    rw [hhandles]
    exact s.handles_bounds
  refine ⟨?_, fun past hpast => (hbounds past hpast).1, fun past hpast => (hbounds past hpast).2.1,
    fun past hpast => (hbounds past hpast).2.2, ?_, h.handles⟩
  · obtain ⟨leases, hleases⟩ := h.leases
    exact ⟨leases, by simpa [Stage.begun] using hleases⟩
  · rintro past weights layers loaded ⟨rest, rfl⟩
    rw [List.append_assoc] at h
    obtain ⟨s, hpast, hload⟩ := h.exists_of_append
    -- A load is in order in one stage only.
    have hfree : s = .free := by
      cases hload with
      | cons hstep _ => cases hstep <;> rfl
    rw [hfree] at hpast
    exact hpast.handles

namespace Host

variable {S M C : Type}

inductive Stays : Option (Resident M C) → Stage → Prop where
  | nothing : Stays none .free
  | resident {r : Resident M C} {layers : Option UInt32} {options : ContextOptions} :
    Stays (some r) (.opened r.weights layers options)

private theorem Stays.release {resident : Option (Resident M C)} {s : Stage}
    (h : Stays resident s) :
    Stage.Run s (releaseEvents resident) .free := by
  cases h with
  | nothing => exact .nil
  | resident => exact .cons .closeContext (.cons .unload .nil)

private theorem Stays.calls {r : Resident M C} {s : Stage} (h : Stays (some r) s)
    (calls : List Call) :
    Stage.Run s (calls.map .call) s := by
  cases h with
  | resident =>
    induction calls with
    | nil => exact .nil
    | cons c calls ih => exact .cons .call ih

theorem Turn.stays {b : Backend S M C} {host host' : Host S M C} {disk : Disk}
    {now : Download.Stamp} {name : String} {result : Except HostError (Resident M C)}
    {events : List Event} (h : host.Turn b disk now name result host' events) {s : Stage}
    (hs : Stays host.resident s) :
    ∃ s', Stage.Run s events s' ∧ Stays host'.resident s' ∧
      ∀ r, result = .ok r → host'.resident = some r := by
  cases h with
  | resident hresident => exact ⟨s, .nil, hs, fun _ heq => by cases heq; exact hresident⟩
  | unknown | downloading | downloadFailed => exact ⟨s, .nil, hs, fun _ heq => by cases heq⟩
  | unloaded =>
    exact ⟨.free, hs.release.append (.cons .notLoaded .nil), .nothing, fun _ heq => by cases heq⟩
  | unopened =>
    exact ⟨.free, hs.release.append (.cons .load (.cons .notOpened (.cons .unload .nil))),
      .nothing, fun _ heq => by cases heq⟩
  | installed =>
    exact ⟨_, hs.release.append (.cons .load (.cons .openContext .nil)), .resident,
      fun _ heq => by cases heq; rfl⟩

theorem Effect.stays {b : Backend S M C} {host : Host S M C} {disk : Disk}
    {now : Download.Stamp} {name : String}
    {work : Resident M C → Except HostError Unit × C × List Call}
    {reply : Reply S M C (Except HostError Unit)} (h : host.Effect b disk now name work reply)
    {s : Stage} (hs : Stays host.resident s) :
    ∃ s', Stage.Run s reply.events s' ∧ Stays reply.host.resident s' := by
  cases h with
  | refused hturn =>
    obtain ⟨s', hrun, hstays, -⟩ := hturn.stays hs
    exact ⟨s', hrun, hstays⟩
  | served hturn =>
    obtain ⟨s', hrun, hstays, hresident⟩ := hturn.stays hs
    rw [hresident _ rfl] at hstays
    refine ⟨s', hrun.append (hstays.calls _), ?_⟩
    cases hstays with
    | resident => exact .resident

theorem perform_stays {host : Host S M C} (hsound : host.downloads.Sound) (b : Backend S M C)
    (disk : Disk) (op : Operation) {s : Stage} (hs : Stays host.resident s) :
    ∃ s', Stage.Run s (host.perform b disk op).events s' ∧
      Stays (host.operate b disk op).resident s' := by
  rw [← host_perform]
  have hperformed := performed hsound b disk op
  generalize host.perform b disk op = reply at hperformed
  cases hperformed with
  | refused | asked | restocked => exact ⟨s, .nil, hs⟩
  | needed _ heffect => exact heffect.stays hs
  | released => exact ⟨.free, hs.release, .nothing⟩

namespace World

def events (b : Backend S M C) (w : World S M C) : Move → List Event
  | .operate op => (w.host.perform b w.disk op).events
  | .downloads _ => []

def trace (b : Backend S M C) (w : World S M C) : List Move → List Event
  | [] => []
  | m :: moves => w.events b m ++ (w.move b m).1.trace b moves

/-- Everything up to the end of the host itself, which lets go of what is resident. -/
def life (b : Backend S M C) (w : World S M C) (moves : List Move) : List Event :=
  w.trace b moves ++ releaseEvents (w.run b moves).1.host.resident

theorem stays_move {w : World S M C} (hsound : w.host.downloads.Sound) (b : Backend S M C)
    (m : Move) {s : Stage} (hs : Stays w.host.resident s) :
    ∃ s', Stage.Run s (w.events b m) s' ∧ Stays (w.move b m).1.host.resident s' := by
  cases m with
  | operate op => exact perform_stays hsound b w.disk op hs
  | downloads m => exact ⟨s, .nil, hs⟩

theorem stays_run {w : World S M C} (hsound : w.host.downloads.Sound) (b : Backend S M C)
    (moves : List Move) {s : Stage} (hs : Stays w.host.resident s) :
    ∃ s', Stage.Run s (w.trace b moves) s' ∧ Stays (w.run b moves).1.host.resident s' := by
  induction moves generalizing w s with
  | nil => exact ⟨s, .nil, hs⟩
  | cons m moves ih =>
    obtain ⟨s', hfirst, hs'⟩ := stays_move hsound b m hs
    obtain ⟨s'', hrest, hs''⟩ := ih (sound_run hsound b [m]) hs'
    exact ⟨s'', hfirst.append hrest, hs''⟩

theorem trace_append (b : Backend S M C) (w : World S M C) (moves more : List Move) :
    w.trace b (moves ++ more) = w.trace b moves ++ (w.run b moves).1.trace b more := by
  induction moves generalizing w with
  | nil => rfl
  | cons m moves ih =>
    simp only [List.cons_append, trace, ih, List.append_assoc]
    rfl

/-- Whatever is done with a host and whatever fails, its life is orderly; and after a release or a
shutdown nothing is left already. -/
theorem orderly_life (b : Backend S M C) (settings : Settings) (store : Store) (state : S)
    (disk : Disk) (moves : List Move) :
    let w := start (M := M) (C := C) settings store state disk
    Orderly (w.life b moves) ∧
      ∀ op, op = .release ∨ op = .shutdown →
        Handles.ofEvents (w.trace b (moves ++ [.operate op])) = {} := by
  intro w
  obtain ⟨s, hrun, hstays⟩ := stays_run (sound_start settings store state disk) b moves
    (Stays.nothing (M := M) (C := C))
  refine ⟨.of_run (hrun.append hstays.release), ?_⟩
  intro op hop
  have hlast : (w.run b moves).1.trace b [.operate op] =
      releaseEvents (w.run b moves).1.host.resident := by
    rcases hop with rfl | rfl <;> exact List.append_nil _
  rw [trace_append, hlast]
  exact (hrun.append hstays.release).handles

end World

end Host

end ModelHost
