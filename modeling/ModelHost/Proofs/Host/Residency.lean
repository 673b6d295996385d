import ModelHost.Proofs.Completion.Renewal
import ModelHost.Proofs.Download.Part
import ModelHost.Proofs.Host.Handles
import ModelHost.Proofs.Host.LocalFiles
import ModelHost.Proofs.Store

/-!
How the resident model came to be there. It was loaded by the descriptor that the store had for its
name then, from the file that this descriptor or a completed record names, and its context was
opened for this descriptor; since then its context was called and nothing else. The store, the
downloads and the disk may have changed, but what is done with the model goes by the descriptor it
was loaded by.
-/

namespace ModelHost

def Event.call? : Event → Option Call
  | .call asked => some asked
  | .load .. | .openContext .. | .closeContext _ | .unload _ => none

def Event.calls (events : List Event) : List Call := events.filterMap Event.call?

@[simp] private theorem Event.calls_append (events more : List Event) :
    Event.calls (events ++ more) = Event.calls events ++ Event.calls more :=
  List.filterMap_append

@[simp] private theorem Event.calls_map_call (calls : List Call) :
    Event.calls (calls.map .call) = calls := by
  simp [Event.calls, Function.comp_def, Event.call?]

@[simp] private theorem Host.calls_releaseEvents {M C : Type} (resident : Option (Resident M C)) :
    Event.calls (releaseEvents resident) = [] := by
  cases resident <;> rfl

namespace Resident

variable {S M C : Type}

/-- What names the file that a model was loaded from: its descriptor or, where that names none, the
record of its name, which is completed and does not name the part file. -/
inductive Sourced (r : Resident M C) (downloads : Download.Table) : Prop where
  | stored (hlocal : r.descriptor.localFile = some r.weights)
  | downloaded {record : Download.Record} (hlocal : r.descriptor.localFile = none)
      (hrecord : downloads.records[r.name]? = some record) (hstatus : record.status = .completed)
      (hfile : record.file = some r.weights)
      (hpart : ∀ disk : Disk, disk.Apart (Download.partFile r.weights) r.weights)

structure LoadedBy (b : Backend S M C) (host : Host S M C) (disk : Disk) (op : Operation)
    (calls : List Call) (r : Resident M C) : Prop where
  asked : ∃ now, op.subject? = some (now, r.name)
  absent : host.residentName ≠ some r.name
  looked : host.store.lookup r.name = some r.descriptor
  named : r.descriptor.name = r.name
  sourced : r.Sourced (host.operate b disk op).downloads
  opened : ∃ loaded fresh state,
    b.load host.state r.weights host.settings.gpuLayers = (.ok r.model, loaded) ∧
      b.openContext loaded r.model
        { window := r.descriptor.window
          threads := .ofSetting host.settings.threads
          batchThreads := .ofSetting host.settings.threads
          vectors := r.descriptor.mode = .embedding } = (.ok fresh, state) ∧
      r.context = b.toInference.after fresh calls

theorem LoadedBy.call {b : Backend S M C} {host : Host S M C} {disk : Disk} {op : Operation}
    {calls : List Call} {r : Resident M C} (h : r.LoadedBy b host disk op calls)
    (more : List Call) :
    ({ r with context := b.toInference.after r.context more } : Resident M C).LoadedBy b host disk
      op (calls ++ more) := by
  obtain ⟨loaded, fresh, state, hload, hopen, hcontext⟩ := h.opened
  refine ⟨h.asked, h.absent, h.looked, h.named, ?_, loaded, fresh, state, hload, hopen, ?_⟩
  · cases h.sourced with
    | stored hlocal => exact .stored hlocal
    | downloaded hlocal hrecord hstatus hfile hpart =>
      exact .downloaded hlocal hrecord hstatus hfile hpart
  · rw [Inference.after_append, ← hcontext]

end Resident

namespace Host

variable {S M C : Type} {b : Backend S M C} {host host' : Host S M C} {disk : Disk}
  {now : Download.Stamp} {name : String} {op : Operation}

private theorem context_work (b : Backend S M C) (r : Resident M C) (op : Operation) :
    (op.work b r).2.1 = b.toInference.after r.context (op.work b r).2.2 := by
  cases op with
  | stream | complete | completeText => exact Completion.context_run ..
  | embed => exact TextVector.context_run ..
  | makeResident | requestWeights | release | shutdown | restock => rfl

private theorem Supplied.sourced {d : Descriptor} {weights : Path} {downloads : Download.Table}
    (h : host.Supplied disk now d weights downloads)
    (hfiled : downloads.Filed) (model : M) (context : C) :
    (⟨d.name, d, weights, model, context⟩ : Resident M C).Sourced downloads := by
  cases h with
  | stored hlocal => exact .stored hlocal
  | downloaded hlocal hstatus =>
    have hrecord := host.downloads.records_request_self disk now d
    obtain ⟨file, hfile⟩ := Option.isSome_iff_exists.mp (hfiled _ _ hrecord)
    exact .downloaded hlocal hrecord hstatus (by simp [hfile])
      fun disk => Download.apart_partFile disk _

/-- A model that an operation is to work on was there before, or the operation loads it. -/
theorem Turn.resident_or_loaded {r : Resident M C} {events : List Event}
    (h : host.Turn b disk now name (.ok r) host' events)
    (hsubject : op.subject? = some (now, name)) (hkeyed : host.store.Keyed)
    (hdownloads : host'.downloads = (host.operate b disk op).downloads)
    (hfiled : host'.downloads.Filed) :
    Event.calls events = [] ∧ (host.resident = some r ∨ r.LoadedBy b host disk op []) := by
  cases h with
  | resident hresident => exact ⟨rfl, .inl hresident⟩
  | @installed d weights downloads model context loaded state hname hlookup hsupplied hload hopen =>
    refine ⟨by rw [Event.calls_append, calls_releaseEvents]; rfl, .inr ?_⟩
    obtain rfl := hkeyed name d hlookup
    refine ⟨⟨now, hsubject⟩, hname, hlookup, rfl, ?_, loaded, context, state, hload, hopen, rfl⟩
    rw [← hdownloads]
    exact hsupplied.sourced hfiled model context

inductive Residence (b : Backend S M C) (host : Host S M C) (disk : Disk) (op : Operation) :
    Option (Resident M C) → List Call → Prop where
  | empty {calls : List Call} : Residence b host disk op none calls
  | kept {r : Resident M C} {calls : List Call} (hresident : host.resident = some r) :
    Residence b host disk op (some { r with context := b.toInference.after r.context calls }) calls
  | loaded {r : Resident M C} {calls : List Call} (h : r.LoadedBy b host disk op calls) :
    Residence b host disk op (some r) calls

theorem residence_self (b : Backend S M C) (host : Host S M C) (disk : Disk) (op : Operation) :
    host.Residence b disk op host.resident [] := by
  cases hresident : host.resident with
  | none => exact .empty
  | some r =>
    have hkept : host.Residence b disk op
        (some { r with context := b.toInference.after r.context [] }) [] := .kept hresident
    exact hkept

theorem Effect.residence {reply : Reply S M C (Except HostError Unit)}
    (h : host.Effect b disk now name (fun r => op.work b r) reply)
    (hsubject : op.subject? = some (now, name)) (hkeyed : host.store.Keyed)
    (hdownloads : reply.host.downloads = (host.operate b disk op).downloads)
    (hfiled : reply.host.downloads.Filed) :
    host.Residence b disk op reply.host.resident (Event.calls reply.events) := by
  cases h with
  | refused hturn =>
    cases hturn with
    | unknown | downloading | downloadFailed => exact residence_self b host disk op
    | unloaded | unopened => exact .empty
  | @served r _ events _ context calls hturn hwork =>
    obtain ⟨hcalls, hr⟩ := hturn.resident_or_loaded hsubject hkeyed hdownloads hfiled
    have hcontext : context = b.toInference.after r.context calls := by
      have hafter := context_work b r op
      rwa [hwork] at hafter
    subst hcontext
    simp only [Event.calls_append, hcalls, Event.calls_map_call, List.nil_append]
    rcases hr with hresident | hloaded
    · exact .kept hresident
    · exact .loaded (hloaded.call calls)

theorem residence_operate (hsound : host.downloads.Sound) (hkeyed : host.store.Keyed)
    (b : Backend S M C) (disk : Disk) (op : Operation)
    (hfiled : (host.operate b disk op).downloads.Filed) :
    host.Residence b disk op (host.operate b disk op).resident
      (Event.calls (host.perform b disk op).events) := by
  have hhost := host_perform b host disk op
  rw [← hhost] at hfiled ⊢
  have hdownloads := congrArg (·.downloads) hhost
  have hperformed := performed hsound b disk op
  generalize host.perform b disk op = reply at hfiled hdownloads hperformed
  cases hperformed with
  | refused | asked | restocked => exact residence_self b host disk op
  | needed hsubject heffect => exact heffect.residence hsubject hkeyed hdownloads hfiled
  | released => exact .empty

theorem Turn.setup {result : Except HostError (Resident M C)} {events : List Event}
    (h : host.Turn b disk now name result host' events) :
    host'.settings = host.settings ∧ host'.store = host.store := by
  cases h <;> exact ⟨rfl, rfl⟩

theorem Effect.setup {work : Resident M C → Except HostError Unit × C × List Call}
    {reply : Reply S M C (Except HostError Unit)} (h : host.Effect b disk now name work reply) :
    reply.host.settings = host.settings ∧ reply.host.store = host.store := by
  cases h with
  | refused hturn | served hturn => exact hturn.setup

theorem setup_operate (hsound : host.downloads.Sound) (b : Backend S M C) (disk : Disk)
    (op : Operation) :
    (host.operate b disk op).settings = host.settings ∧
      ((∀ store, op ≠ .restock store) → (host.operate b disk op).store = host.store) := by
  rw [← host_perform]
  have hperformed := performed hsound b disk op
  generalize host.perform b disk op = reply at hperformed
  cases hperformed with
  | refused | asked | released => exact ⟨rfl, fun _ => rfl⟩
  | needed _ heffect => exact ⟨heffect.setup.1, fun _ => heffect.setup.2⟩
  | restocked hop => exact ⟨rfl, fun hother => absurd hop (hother _)⟩

namespace World

inductive EditsOnly (b : Backend S M C) (start : World S M C) : List Move → Prop where
  | nil : EditsOnly b start []
  | edit {moves : List Move} (h : EditsOnly b start moves) (e : Store.Edit) :
    EditsOnly b start
      (moves ++ [.operate (.restock ((start.run b moves).1.host.store.edit e))])
  | other {moves : List Move} {m : Move} (h : EditsOnly b start moves)
      (hother : ∀ store, m ≠ .operate (.restock store)) : EditsOnly b start (moves ++ [m])

private theorem run_snoc (b : Backend S M C) (w : World S M C) (moves : List Move) (m : Move) :
    (w.run b (moves ++ [m])).1 = ((w.run b moves).1.move b m).1 := by
  rw [run_append]
  rfl

theorem settings_run {start : World S M C} (hsound : start.host.downloads.Sound)
    (b : Backend S M C) (moves : List Move) :
    (start.run b moves).1.host.settings = start.host.settings := by
  induction moves generalizing start with
  | nil => rfl
  | cons m moves ih =>
    have hmove : (start.move b m).1.host.settings = start.host.settings := by
      cases m with
      | operate op => exact (setup_operate hsound b start.disk op).1
      | downloads m => rfl
    rw [← hmove]
    exact ih (sound_run hsound b [m])

theorem EditsOnly.keyed {start : World S M C} {moves : List Move} (h : start.EditsOnly b moves)
    (hsound : start.host.downloads.Sound) (hkeyed : start.host.store.Keyed) :
    (start.run b moves).1.host.store.Keyed := by
  induction h with
  | nil => exact hkeyed
  | edit _ e ih =>
    rw [run_snoc]
    exact ih.edit e
  | @other moves m _ hother ih =>
    rw [run_snoc]
    cases m with
    | downloads m => exact ih
    | operate op =>
      have hstore := (setup_operate (sound_run hsound b moves) b (start.run b moves).1.disk op).2
        fun store hsame => hother store (congrArg Move.operate hsame)
      simp only [move, hstore]
      exact ih

/-- Says that one of the moves of a run loads a model, whose context gets from then on just the
calls that the run shows. -/
def Loads (b : Backend S M C) (start : World S M C) (moves : List Move) (r : Resident M C) : Prop :=
  ∃ past op later, moves = past ++ .operate op :: later ∧
    let w := (start.run b past).1
    r.LoadedBy b w.host w.disk op (Event.calls (w.trace b (.operate op :: later)))

theorem Loads.snoc {start : World S M C} {moves : List Move} {r : Resident M C}
    (h : start.Loads b moves r) (m : Move) {calls : List Call}
    (hcalls : Event.calls ((start.run b moves).1.events b m) = calls) :
    start.Loads b (moves ++ [m]) { r with context := b.toInference.after r.context calls } := by
  obtain ⟨past, op, later, rfl, hloaded⟩ := h
  refine ⟨past, op, later ++ [m], by simp, ?_⟩
  have htrace : (start.run b past).1.trace b (.operate op :: (later ++ [m])) =
      (start.run b past).1.trace b (.operate op :: later) ++
        (start.run b (past ++ .operate op :: later)).1.events b m := by
    rw [run_append, ← List.cons_append, trace_append]
    simp [trace]
  dsimp only
  rw [htrace, Event.calls_append, hcalls]
  exact hloaded.call calls

theorem Loads.move {start : World S M C} {moves : List Move} (m : Move)
    (hsound : start.host.downloads.Sound) (hkeyed : (start.run b moves).1.host.store.Keyed)
    (hfiled : ((start.run b moves).1.move b m).1.host.downloads.Filed)
    (hloads : ∀ r, (start.run b moves).1.host.resident = some r → start.Loads b moves r)
    {r : Resident M C} (hr : ((start.run b moves).1.move b m).1.host.resident = some r) :
    start.Loads b (moves ++ [m]) r := by
  cases m with
  | downloads m =>
    -- Moves of the downloads call no context and leave the resident model alone.
    have hshown : Event.calls ((start.run b moves).1.events b (.downloads m)) = [] := rfl
    exact (hloads r hr).snoc (.downloads m) hshown
  | operate op =>
    have hresidence := residence_operate (sound_run hsound b moves) hkeyed b
      (start.run b moves).1.disk op hfiled
    have hplace : ((start.run b moves).1.host.operate b (start.run b moves).1.disk op).resident =
      some r := hr
    rw [hplace] at hresidence
    -- The model was there before and its context was called on, or this is the load.
    cases hresidence with
    | @kept old _ hresident => exact (hloads old hresident).snoc (.operate op) rfl
    | loaded h =>
      refine ⟨moves, op, [], rfl, ?_⟩
      simpa [trace, events] using h

theorem loads_run (b : Backend S M C) (settings : Settings) {store : Store}
    (hkeyed : store.Keyed) (state : S) (disk : Disk) {moves : List Move}
    (hedits : (start (M := M) (C := C) settings store state disk).EditsOnly b moves) :
    let start := start (M := M) (C := C) settings store state disk
    ∀ r, (start.run b moves).1.host.resident = some r → start.Loads b moves r := by
  intro start
  have hsound := sound_start (M := M) (C := C) settings store state disk
  have hfiled : ∀ moves m, ((start.run b moves).1.move b m).1.host.downloads.Filed := by
    intro moves m
    rw [← run_snoc]
    exact filed_run b settings store state disk (moves ++ [m])
  induction hedits with
  | nil =>
    intro r hr
    cases hr
  | edit h e ih =>
    intro r hr
    rw [run_snoc] at hr
    exact Loads.move _ hsound (h.keyed hsound hkeyed) (hfiled _ _) ih hr
  | @other moves m h _ ih =>
    intro r hr
    rw [run_snoc] at hr
    exact Loads.move m hsound (h.keyed hsound hkeyed) (hfiled moves m) ih hr

/-- If a model is resident, with a store that is only edited, then an operation has loaded it by the
descriptor that the store had for its name at that time; and an answer of the model spends what this
descriptor allows, whatever the store has for its name by now. -/
theorem resident_snapshot (b : Backend S M C) (settings : Settings) (ds : List Descriptor)
    (state : S) (disk : Disk) {moves : List Move} {r : Resident M C}
    (hedits : (start settings (.ofDescriptors ds) state disk).EditsOnly b moves)
    (hr : ((start settings (.ofDescriptors ds) state disk).run b moves).1.host.resident =
      some r) :
    let start := start (M := M) (C := C) settings (.ofDescriptors ds) state disk
    let w := (start.run b moves).1
    (∃ past op later, moves = past ++ .operate op :: later ∧
        let before := (start.run b past).1
        before.host.settings = settings ∧
          r.LoadedBy b before.host before.disk op
            (Event.calls (before.trace b (.operate op :: later)))) ∧
      ∀ store now q, q.check = .ok () →
        let host := { w.host with store }
        let run := Completion.run b.toInference r.model r.descriptor.outputLimit q r.context
        host.stream b w.disk now r.name q =
          ⟨⟨run.chunks, run.result.mapError fun failure => .noAnswer failure.message⟩,
            { host with resident := some { r with context := run.context } },
            run.calls.map .call⟩ := by
  intro start w
  constructor
  · obtain ⟨past, op, later, hmoves, hloaded⟩ :=
      loads_run b settings (Store.keyed_ofDescriptors ds) state disk hedits r hr
    have hsound := sound_start (M := M) (C := C) settings (.ofDescriptors ds) state disk
    exact ⟨past, op, later, hmoves, settings_run hsound b past, hloaded⟩
  · intro store now q hcheck host run
    have hresident : host.resident = some r := hr
    simp only [stream, hcheck]
    exact use_of_resident hresident rfl b w.disk now _ _

def cached : Descriptor :=
  { name := "m"
    outputLimit := 7
    source := some { url := "http://h/m", cacheFile := some ⟨"m.gguf"⟩ } }

def cachedStart : World Unit Unit Unit :=
  start { modelsDirectory := ⟨"models"⟩ } (.ofDescriptors [cached]) ()
    { Disk.empty with
      entries := Disk.empty.entries.insert ["m.gguf", "work"] (.file 0)
      contents := Disk.empty.contents.insert 0 ⟨#[1]⟩ }

def replacedMoves : List Move :=
  [.operate (.makeResident 0 "m")] ++
    [.operate (.restock ((cachedStart.run narrow [.operate (.makeResident 0 "m")]).1.host.store.edit
      (.insert { name := "m", window := 64, outputLimit := 2 })))]

theorem resident_snapshot_replaced :
    let w := (cachedStart.run narrow replacedMoves).1
    cachedStart.EditsOnly narrow replacedMoves ∧
      (w.host.store.lookup "m").map (·.outputLimit) = some 2 ∧
      ∃ r, w.host.resident = some r ∧ r.descriptor = cached ∧ r.weights = ⟨"m.gguf"⟩ ∧
        (∃ past op later, replacedMoves = past ++ .operate op :: later ∧
          let before := (cachedStart.run narrow past).1
          before.host.settings = { modelsDirectory := ⟨"models"⟩ } ∧
            r.LoadedBy narrow before.host before.disk op
              (Event.calls (before.trace narrow (.operate op :: later)))) ∧
        (w.host.stream narrow w.disk 1 "m" { prompt := "x" }).answer.chunks =
          (Completion.run narrow.toInference () 7 { prompt := "x" } r.context).chunks := by
  intro w
  have hloading : cachedStart.EditsOnly narrow ([] ++ [.operate (.makeResident 0 "m")]) :=
    .other .nil (fun _ hsame => nomatch Move.operate.inj hsame)
  have hedits : cachedStart.EditsOnly narrow replacedMoves := .edit hloading _
  have hplace : w.host.resident.map (fun r => (r.name, r.descriptor, r.weights)) =
      some ("m", cached, ⟨"m.gguf"⟩) := by
    decide +kernel
  obtain ⟨⟨name, descriptor, weights, model, context⟩, hr, hkept⟩ :=
    Option.map_eq_some_iff.mp hplace
  cases hkept
  obtain ⟨hloaded, hstream⟩ := resident_snapshot narrow { modelsDirectory := ⟨"models"⟩ } [cached]
    () cachedStart.disk hedits hr
  refine ⟨hedits, by decide +kernel, _, hr, rfl, rfl, hloaded, ?_⟩
  exact congrArg (·.answer.chunks) (hstream w.host.store 1 { prompt := "x" } rfl)

end World

end Host

end ModelHost
