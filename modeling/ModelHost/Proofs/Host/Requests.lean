import ModelHost.Proofs.Host.Downloads

/-!
What a request does to the resident model. A request for a model that is resident uses it and asks
for nothing. Any other request leaves the resident model where it is until the weights of the other
one are there; from then on the place is empty, unless the load and the opening of the context both
succeed. What is done with the model afterwards changes nothing but its context.
-/

namespace ModelHost

def Operation.subject? : Operation → Option (Download.Stamp × String)
  | .makeResident now name | .stream now name _ | .complete now name _ | .completeText now name _
  | .embed now name _ => some (now, name)
  | .requestWeights .. | .release | .shutdown | .restock _ => none

def Operation.check : Operation → Except HostError Unit
  | .stream _ _ r | .complete _ _ r | .completeText _ _ r => r.check
  | .makeResident .. | .embed .. | .requestWeights .. | .release | .shutdown | .restock _ => .ok ()

def Operation.work {S M C : Type} (b : Backend S M C) (r : Resident M C) :
    Operation → Except HostError Unit × C × List Call
  | .stream _ _ q | .complete _ _ q | .completeText _ _ q =>
    let run := Completion.run b.toInference r.model r.descriptor.outputLimit q r.context
    ((run.result.mapError fun failure => .noAnswer failure.message).map fun _ => (),
      run.context, run.calls)
  | .embed _ name input =>
    let run := TextVector.run b.toInference r.model name input r.context
    ((run.result.mapError fun failure => .noAnswer failure.message).map fun _ => (),
      run.context, run.calls)
  | .makeResident .. | .requestWeights .. | .release | .shutdown | .restock _ =>
    (.ok (), r.context, [])

/-- What is left of a reply when only the error of its answer counts. -/
def Reply.settle {S M C α : Type} (reply : Reply S M C α) (result : α → Except HostError Unit) :
    Reply S M C (Except HostError Unit) :=
  { reply with answer := result reply.answer }

namespace Host

variable {S M C : Type}

def perform (b : Backend S M C) (host : Host S M C) (disk : Disk) :
    Operation → Reply S M C (Except HostError Unit)
  | .makeResident now name => host.makeResident b disk now name
  | .stream now name r => (host.stream b disk now name r).settle (·.result.map fun _ => ())
  | .complete now name r => (host.complete b disk now name r).settle (·.map fun _ => ())
  | .completeText now name r =>
    (host.completeText b disk now name r).settle (·.map fun _ => ())
  | .embed now name input => (host.embed b disk now name input).settle (·.map fun _ => ())
  | .requestWeights now name =>
    let (answer, host) := host.requestWeights disk now name
    ⟨answer.map fun _ => (), host, []⟩
  | .release => host.release.settle fun _ => .ok ()
  | .shutdown => host.shutdown.settle .ok
  | .restock store => ⟨.ok (), { host with store }, []⟩

private theorem perform_complete (b : Backend S M C) (host : Host S M C) (disk : Disk)
    (now : Download.Stamp) (name : String) (r : Completion.Request) :
    host.perform b disk (.complete now name r) = host.perform b disk (.stream now name r) := by
  simp only [perform, complete, Reply.settle]
  cases (host.stream b disk now name r).answer.result <;> rfl

private theorem perform_completeText (b : Backend S M C) (host : Host S M C) (disk : Disk)
    (now : Download.Stamp) (name : String) (r : Completion.Request) :
    host.perform b disk (.completeText now name r) = host.perform b disk (.stream now name r) := by
  simp only [perform, completeText, Reply.settle]
  cases (host.stream b disk now name r).answer.result <;> rfl

theorem host_perform (b : Backend S M C) (host : Host S M C) (disk : Disk) (op : Operation) :
    (host.perform b disk op).host = host.operate b disk op := by
  cases op <;> rfl

/-- Where the weights of a model come from, and what the downloads are then. -/
inductive Supplied (host : Host S M C) (disk : Disk) (now : Download.Stamp) (d : Descriptor) :
    Path → Download.Table → Prop where
  | stored {file : Path} (hlocal : d.localFile = some file) :
    Supplied host disk now d file host.downloads
  | downloaded (hlocal : d.localFile = none)
      (hstatus : (host.downloads.request disk now d).1.status = .completed) :
    Supplied host disk now d
      ((host.downloads.request disk now d).1.file.getD (host.downloads.target d))
      (host.downloads.request disk now d).2

/-- What a request for a model comes to before anything is done with the model: the model or the
error, the host then, and what has happened to models and contexts. -/
inductive Turn (b : Backend S M C) (host : Host S M C) (disk : Disk) (now : Download.Stamp)
    (name : String) : Except HostError (Resident M C) → Host S M C → List Event → Prop where
  | resident {r : Resident M C} (hresident : host.resident = some r) (hname : r.name = name) :
    Turn b host disk now name (.ok r) host []
  | unknown (hname : host.residentName ≠ some name) (hlookup : host.store.lookup name = none) :
    Turn b host disk now name (.error (.unknownModel name)) host []
  | downloading {d : Descriptor} (hname : host.residentName ≠ some name)
      (hlookup : host.store.lookup name = some d) (hlocal : d.localFile = none)
      (hstatus : (host.downloads.request disk now d).1.status = .inProgress) :
    Turn b host disk now name (.error (.stillDownloading d.name))
      { host with downloads := (host.downloads.request disk now d).2 } []
  | downloadFailed {d : Descriptor} (hname : host.residentName ≠ some name)
      (hlookup : host.store.lookup name = some d) (hlocal : d.localFile = none)
      (hstatus : (host.downloads.request disk now d).1.status = .failed) :
    Turn b host disk now name
      (.error (.downloadFailed d.name (host.downloads.request disk now d).1.errorText))
      { host with downloads := (host.downloads.request disk now d).2 } []
  | unloaded {d : Descriptor} {weights : Path} {downloads : Download.Table} {cause : Cause}
      {state : S} (hname : host.residentName ≠ some name)
      (hlookup : host.store.lookup name = some d)
      (hsupplied : host.Supplied disk now d weights downloads)
      (hload : b.load host.state weights host.settings.gpuLayers = (.error cause, state)) :
    Turn b host disk now name
      (.error (.loadFailed s!"{name} ({weights.text}): {cause.message}"))
      { host with downloads, state, resident := none }
      (releaseEvents host.resident ++ [.load weights host.settings.gpuLayers false])
  | unopened {d : Descriptor} {weights : Path} {downloads : Download.Table} {model : M}
      {cause : Cause} {loaded state : S} (hname : host.residentName ≠ some name)
      (hlookup : host.store.lookup name = some d)
      (hsupplied : host.Supplied disk now d weights downloads)
      (hload : b.load host.state weights host.settings.gpuLayers = (.ok model, loaded))
      (hopen : b.openContext loaded model (host.contextOptions d) = (.error cause, state)) :
    Turn b host disk now name
      (.error (.loadFailed s!"Failed to create context for {name}: {cause.message}"))
      { host with downloads, state, resident := none }
      (releaseEvents host.resident ++
        [.load weights host.settings.gpuLayers true,
         .openContext weights (host.contextOptions d) false, .unload weights])
  | installed {d : Descriptor} {weights : Path} {downloads : Download.Table} {model : M}
      {context : C} {loaded state : S} (hname : host.residentName ≠ some name)
      (hlookup : host.store.lookup name = some d)
      (hsupplied : host.Supplied disk now d weights downloads)
      (hload : b.load host.state weights host.settings.gpuLayers = (.ok model, loaded))
      (hopen : b.openContext loaded model (host.contextOptions d) = (.ok context, state)) :
    Turn b host disk now name (.ok ⟨name, d, weights, model, context⟩)
      { host with downloads, state, resident := some ⟨name, d, weights, model, context⟩ }
      (releaseEvents host.resident ++
        [.load weights host.settings.gpuLayers true,
         .openContext weights (host.contextOptions d) true])

/-- What a request for a model comes to in all, with the work that is done on the model. Whatever
the answer, the model stays where it is. -/
inductive Effect (b : Backend S M C) (host : Host S M C) (disk : Disk) (now : Download.Stamp)
    (name : String) (work : Resident M C → Except HostError Unit × C × List Call) :
    Reply S M C (Except HostError Unit) → Prop where
  | refused {error : HostError} {host' : Host S M C} {events : List Event}
      (hturn : host.Turn b disk now name (.error error) host' events) :
    Effect b host disk now name work ⟨.error error, host', events⟩
  | served {r : Resident M C} {host' : Host S M C} {events : List Event}
      {answer : Except HostError Unit} {context : C} {calls : List Call}
      (hturn : host.Turn b disk now name (.ok r) host' events)
      (hwork : work r = (answer, context, calls)) :
    Effect b host disk now name work
      ⟨answer, { host' with resident := some { r with context } }, events ++ calls.map .call⟩

variable {b : Backend S M C} {host : Host S M C} {disk : Disk} {now : Download.Stamp}
  {name : String}

private theorem weightsFor_cases (hsound : host.downloads.Sound) (disk : Disk)
    (now : Download.Stamp) (d : Descriptor) :
    (∃ weights downloads, host.Supplied disk now d weights downloads ∧
        host.weightsFor disk now d = (.ok weights, { host with downloads })) ∨
      d.localFile = none ∧
        let (record, downloads) := host.downloads.request disk now d
        record.status = .inProgress ∧
            host.weightsFor disk now d =
              (.error (.stillDownloading d.name), { host with downloads }) ∨
          record.status = .failed ∧
            host.weightsFor disk now d =
              (.error (.downloadFailed d.name record.errorText), { host with downloads }) := by
  unfold weightsFor requestRecord
  cases hlocal : d.localFile with
  | some file => exact .inl ⟨file, host.downloads, .stored hlocal, rfl⟩
  | none =>
    dsimp only
    cases hstatus : (host.downloads.request disk now d).1.status with
    | notStarted => exact absurd hstatus (hsound.request_status_ne disk now d)
    | inProgress => exact .inr ⟨rfl, .inl ⟨rfl, rfl⟩⟩
    | failed => exact .inr ⟨rfl, .inr ⟨rfl, rfl⟩⟩
    | completed =>
      have htarget : (host.downloads.request disk now d).2.target d = host.downloads.target d := by
        unfold Download.Table.request
        split <;> rfl
      refine .inl ⟨_, _, .downloaded hlocal hstatus, ?_⟩
      rw [htarget]

private theorem turn_install {d : Descriptor} {weights : Path} {downloads : Download.Table}
    (hname : host.residentName ≠ some name) (hlookup : host.store.lookup name = some d)
    (hsupplied : host.Supplied disk now d weights downloads) :
    let reply := install b { host with downloads, resident := none } name d weights
    ∃ result,
      host.Turn b disk now name result reply.host (releaseEvents host.resident ++ reply.events) ∧
        reply.answer = result.map (fun _ => ()) ∧
        ∀ r, result = .ok r → reply.host.resident = some r := by
  unfold install
  dsimp only
  rcases hload : b.load host.state weights host.settings.gpuLayers with ⟨cause | model, loaded⟩
  · exact ⟨_, .unloaded hname hlookup hsupplied hload, rfl, fun _ heq => by cases heq⟩
  · dsimp only
    rcases hopen : b.openContext loaded model
        (contextOptions (M := M) (C := C) { host with downloads, resident := none } d) with
      ⟨cause | context, state⟩
    · exact ⟨_, .unopened hname hlookup hsupplied hload hopen, rfl, fun _ heq => by cases heq⟩
    · exact ⟨_, .installed hname hlookup hsupplied hload hopen, rfl, fun r hr => by cases hr; rfl⟩

theorem turn_makeResident (hsound : host.downloads.Sound) (b : Backend S M C) (disk : Disk)
    (now : Download.Stamp) (name : String) :
    let reply := host.makeResident b disk now name
    ∃ result, host.Turn b disk now name result reply.host reply.events ∧
      reply.answer = result.map (fun _ => ()) ∧
      ∀ r, result = .ok r → reply.host.resident = some r := by
  unfold makeResident
  by_cases hname : host.residentName = some name
  · obtain ⟨r, hr, hname'⟩ := Option.map_eq_some_iff.mp hname
    rw [if_pos hname]
    exact ⟨_, .resident hr hname', rfl, fun _ heq => by cases heq; exact hr⟩
  · rw [if_neg hname]
    cases hlookup : host.store.lookup name with
    | none => exact ⟨_, .unknown hname hlookup, rfl, fun _ heq => by cases heq⟩
    | some d =>
      rcases host.weightsFor_cases hsound disk now d with
        ⟨weights, downloads, hsupplied, hweights⟩ |
          ⟨hlocal, ⟨hstatus, hweights⟩ | ⟨hstatus, hweights⟩⟩
      · simp only [hweights]
        exact turn_install hname hlookup hsupplied
      · simp only [hweights]
        exact ⟨_, .downloading hname hlookup hlocal hstatus, rfl, fun _ heq => by cases heq⟩
      · simp only [hweights]
        exact ⟨_, .downloadFailed hname hlookup hlocal hstatus, rfl, fun _ heq => by cases heq⟩

theorem effect_makeResident (hsound : host.downloads.Sound) (b : Backend S M C) (disk : Disk)
    (now : Download.Stamp) (name : String) :
    host.Effect b disk now name (fun r => (.ok (), r.context, []))
      (host.makeResident b disk now name) := by
  obtain ⟨outcome, hturn, hanswer, hresident⟩ := turn_makeResident hsound b disk now name
  generalize host.makeResident b disk now name = reply at *
  obtain ⟨answer, host', events⟩ := reply
  subst hanswer
  cases outcome with
  | error error => exact .refused hturn
  | ok r =>
    have hkept : { host' with resident := some { r with context := r.context } } = host' := by
      rw [← hresident r rfl]
    have hserved : host.Effect b disk now name (fun r => (.ok (), r.context, []))
        ⟨.ok (), { host' with resident := some { r with context := r.context } },
          events ++ List.map .call []⟩ := .served hturn rfl
    rwa [hkept, List.map_nil, List.append_nil] at hserved

theorem effect_use {α : Type} (hsound : host.downloads.Sound) (b : Backend S M C) (disk : Disk)
    (now : Download.Stamp) (name : String) {refuse : HostError → α}
    {work : Resident M C → α × C × List Call} {result : α → Except HostError Unit}
    {settled : Resident M C → Except HostError Unit × C × List Call}
    (hrefuse : ∀ error, result (refuse error) = .error error)
    (hsettled : ∀ r, settled r = (result (work r).1, (work r).2)) :
    host.Effect b disk now name settled
      ((host.use b disk now name refuse work).settle result) := by
  obtain ⟨outcome, hturn, hanswer, hresident⟩ := turn_makeResident hsound b disk now name
  unfold use
  cases outcome with
  | error error =>
    simp only [hanswer, Except.map, Reply.settle, hrefuse]
    exact .refused hturn
  | ok r =>
    simp only [hanswer, Except.map, hresident r rfl, Reply.settle]
    exact .served hturn (hsettled r)

theorem effect_stream (hsound : host.downloads.Sound) (b : Backend S M C) (disk : Disk)
    (now : Download.Stamp) (name : String) {r : Completion.Request} (hcheck : r.check = .ok ()) :
    host.Effect b disk now name (fun resident => (Operation.stream now name r).work b resident)
      (host.perform b disk (.stream now name r)) := by
  simp only [perform, stream, hcheck]
  exact effect_use hsound b disk now name (by intro; rfl) (by intro; rfl)

theorem effect_perform (hsound : host.downloads.Sound) (b : Backend S M C) (disk : Disk)
    {op : Operation} (hsubject : op.subject? = some (now, name)) (hcheck : op.check = .ok ()) :
    host.Effect b disk now name (fun r => op.work b r) (host.perform b disk op) := by
  cases op with
  | requestWeights | release | shutdown | restock => nomatch hsubject
  | makeResident now name =>
    cases hsubject
    exact effect_makeResident hsound b disk _ _
  | stream now name r =>
    cases hsubject
    exact effect_stream hsound b disk _ _ hcheck
  | complete now name r =>
    cases hsubject
    rw [perform_complete]
    exact effect_stream hsound b disk _ _ hcheck
  | completeText now name r =>
    cases hsubject
    rw [perform_completeText]
    exact effect_stream hsound b disk _ _ hcheck
  | embed now name input =>
    cases hsubject
    exact effect_use hsound b disk _ _ (by intro; rfl) (by intro; rfl)

theorem perform_of_check_error {op : Operation} {error : HostError} (h : op.check = .error error)
    (b : Backend S M C) (host : Host S M C) (disk : Disk) :
    host.perform b disk op = ⟨.error error, host, []⟩ := by
  have hstream : ∀ now name (r : Completion.Request), r.check = .error error →
      host.perform b disk (.stream now name r) = ⟨.error error, host, []⟩ := by
    intro now name r hcheck
    simp [perform, stream, hcheck, Reply.settle, Except.map]
  cases op with
  | stream now name r => exact hstream now name r h
  | complete now name r => exact (host.perform_complete b disk now name r).trans (hstream _ _ _ h)
  | completeText now name r =>
    exact (host.perform_completeText b disk now name r).trans (hstream _ _ _ h)
  | makeResident | embed | requestWeights | release | shutdown | restock => cases h

/-- What any operation comes to in all: it is refused, it has the effect of a request for a model,
or it is one of those that need none. -/
inductive Performed (b : Backend S M C) (host : Host S M C) (disk : Disk) (op : Operation) :
    Reply S M C (Except HostError Unit) → Prop where
  | refused {error : HostError} (hcheck : op.check = .error error) :
    Performed b host disk op ⟨.error error, host, []⟩
  | needed {now : Download.Stamp} {name : String} {reply : Reply S M C (Except HostError Unit)}
      (hsubject : op.subject? = some (now, name))
      (heffect : host.Effect b disk now name (fun r => op.work b r) reply) :
    Performed b host disk op reply
  | asked {answer : Except HostError Unit} {downloads : Download.Table} :
    Performed b host disk op ⟨answer, { host with downloads }, []⟩
  | released {downloads : Download.Table} :
    Performed b host disk op
      ⟨.ok (), { host with resident := none, downloads }, releaseEvents host.resident⟩
  | restocked {store : Store} (hop : op = .restock store) :
    Performed b host disk op ⟨.ok (), { host with store }, []⟩

theorem performed (hsound : host.downloads.Sound) (b : Backend S M C) (disk : Disk)
    (op : Operation) : host.Performed b disk op (host.perform b disk op) := by
  cases hsubject : op.subject? with
  | some subject =>
    cases hcheck : op.check with
    | error error =>
      rw [perform_of_check_error hcheck]
      exact .refused hcheck
    | ok => exact .needed hsubject (effect_perform hsound b disk hsubject hcheck)
  | none =>
    cases op with
    | makeResident | stream | complete | completeText | embed => nomatch hsubject
    | release | shutdown => exact .released
    | restock store => exact .restocked rfl
    | requestWeights now name =>
      simp only [perform, requestWeights]
      split <;> exact .asked

/-- Work on the resident model asks neither for a descriptor nor for weights. -/
theorem use_of_resident {α : Type} {r : Resident M C} (hresident : host.resident = some r)
    (hname : r.name = name) (b : Backend S M C) (disk : Disk) (now : Download.Stamp)
    (refuse : HostError → α) (work : Resident M C → α × C × List Call) :
    host.use b disk now name refuse work =
      ⟨(work r).1, { host with resident := some { r with context := (work r).2.1 } },
        (work r).2.2.map .call⟩ := by
  have hthere : host.residentName = some name := by simp [residentName, hresident, hname]
  simp [use, makeResident, hthere, hresident]

/-- A request for the resident model comes to the same whatever is in the store, in the downloads
and on the disk. -/
theorem perform_of_resident {op : Operation} (hsubject : op.subject? = some (now, name))
    (hname : host.residentName = some name) (b : Backend S M C) (disk disk' : Disk)
    (store : Store) (downloads : Download.Table) :
    ({ host with store, downloads } : Host S M C).perform b disk' op =
      let reply := host.perform b disk op
      { reply with host := { reply.host with store, downloads } } := by
  obtain ⟨r, hresident, hr⟩ := Option.map_eq_some_iff.mp hname
  have hother : ({ host with store, downloads } : Host S M C).resident = some r := hresident
  have hstream : ∀ request : Completion.Request,
      ({ host with store, downloads } : Host S M C).perform b disk' (.stream now name request) =
        let reply := host.perform b disk (.stream now name request)
        { reply with host := { reply.host with store, downloads } } := by
    intro request
    simp only [perform, stream]
    split
    next => rfl
    next =>
      rw [use_of_resident hresident hr, use_of_resident hother hr]
      rfl
  cases op with
  | requestWeights | release | shutdown | restock => cases hsubject
  | makeResident now name =>
    cases hsubject
    have hother : ({ host with store, downloads } : Host S M C).residentName = some name := hname
    simp only [perform, makeResident, if_pos hname, if_pos hother]
  | stream now name request =>
    cases hsubject
    exact hstream request
  | complete now name request =>
    cases hsubject
    simpa only [perform_complete] using hstream request
  | completeText now name request =>
    cases hsubject
    simpa only [perform_completeText] using hstream request
  | embed now name input =>
    cases hsubject
    simp only [perform, embed]
    rw [use_of_resident hresident hr, use_of_resident hother hr]
    rfl

theorem World.sound_start (settings : Settings) (store : Store) (state : S) (disk : Disk) :
    (World.start (M := M) (C := C) settings store state disk).host.downloads.Sound :=
  Download.Table.Sound.start settings.modelsDirectory settings.client

theorem World.sound_run {w : World S M C} (h : w.host.downloads.Sound) (b : Backend S M C)
    (moves : List Move) : (w.run b moves).1.host.downloads.Sound := by
  have hrun : (w.run b moves).1.host.downloads =
      (w.downloads.run (w.downloadMoves b moves)).1.table :=
    congrArg (·.1.table) (w.downloads_run b moves)
  rw [hrun]
  exact (Download.Table.Sound.run h _).1

/-- In every host that can come about, a request that is refused changes nothing; any other one has
the effect described, and one for the resident model depends on neither the store nor the downloads
nor the disk. -/
theorem World.effect_of_request (b : Backend S M C) (settings : Settings) (store : Store)
    (state : S) (disk : Disk) (moves : List Move) {op : Operation} {now : Download.Stamp}
    {name : String} (hsubject : op.subject? = some (now, name)) :
    let w := ((World.start (M := M) (C := C) settings store state disk).run b moves).1
    let reply := w.host.perform b w.disk op
    (∀ error, op.check = .error error → reply = ⟨.error error, w.host, []⟩) ∧
      (op.check = .ok () → w.host.Effect b w.disk now name (fun r => op.work b r) reply) ∧
      (w.host.residentName = some name → ∀ store downloads disk',
        ({ w.host with store, downloads } : Host S M C).perform b disk' op =
          { reply with host := { reply.host with store, downloads } }) := by
  intro w reply
  have hsound : w.host.downloads.Sound := sound_run (sound_start settings store state disk) b moves
  exact ⟨fun error hcheck => perform_of_check_error hcheck b w.host w.disk,
    effect_perform hsound b w.disk hsubject,
    fun hname store downloads disk' => perform_of_resident hsubject hname b _ _ _ _⟩

def pairStore : Store :=
  .ofDescriptors
    [{ name := "a", localFile := some ⟨"/a.gguf"⟩ },
     { name := "b", window := 8192, localFile := some ⟨"/b.gguf"⟩ }]

def narrow : Backend Unit Unit Unit where
  tokenize _ _ := .ok []
  piece _ _ := .ok []
  endToken _ := 0
  width _ := 1
  window _ := 4096
  clear _ := ()
  decode _ _ := (.ok (), ())
  logits _ _ := none
  vector _ := none
  load _ _ _ := (.ok (), ())
  openContext _ _ options := (if options.window ≤ 4096 then .ok () else .error ⟨["full"]⟩, ())

theorem effect_of_request_unopened :
    let w := ((World.start { modelsDirectory := ⟨"models"⟩ } pairStore () .empty).run narrow
      [.operate (.makeResident 0 "a")]).1
    let reply := w.host.perform narrow w.disk (.makeResident 1 "b")
    w.host.residentName = some "a" ∧
      w.host.Effect narrow w.disk 1 "b" (fun r => (.ok (), r.context, [])) reply ∧
      reply.answer = .error (.loadFailed "Failed to create context for b: full") ∧
      reply.host.residentName = none ∧
      reply.events =
        [.closeContext ⟨"/a.gguf"⟩, .unload ⟨"/a.gguf"⟩, .load ⟨"/b.gguf"⟩ none true,
         .openContext ⟨"/b.gguf"⟩ ⟨8192, .machine, .machine, false⟩ false,
         .unload ⟨"/b.gguf"⟩] := by
  have hsubject : (Operation.makeResident 1 "b").subject? = some (1, "b") := rfl
  refine ⟨by decide +kernel, ?_, rfl, by decide +kernel, by decide +kernel⟩
  exact (World.effect_of_request narrow _ pairStore () .empty [.operate (.makeResident 0 "a")]
    hsubject).2.1 rfl

end Host

end ModelHost
