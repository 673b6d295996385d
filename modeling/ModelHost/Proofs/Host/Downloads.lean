import ModelHost.Host
import ModelHost.Proofs.Download.Account

/-!
The downloads of a host. Whatever is done with a host, its downloads see at most one request of it;
so what goes on in a host, its operations and the moves of its downloads in any order, is a run of
the downloads, and has the account of one.
-/

namespace ModelHost

inductive Operation where
  | makeResident (now : Download.Stamp) (name : String)
  | stream (now : Download.Stamp) (name : String) (r : Completion.Request)
  | complete (now : Download.Stamp) (name : String) (r : Completion.Request)
  | completeText (now : Download.Stamp) (name : String) (r : Completion.Request)
  | embed (now : Download.Stamp) (name : String) (input : TextVector.Input)
  | requestWeights (now : Download.Stamp) (name : String)
  | release
  | shutdown
  | restock (store : Store)

namespace Host

variable {S M C : Type}

def operate (b : Backend S M C) (host : Host S M C) (disk : Disk) : Operation → Host S M C
  | .makeResident now name => (host.makeResident b disk now name).host
  | .stream now name r => (host.stream b disk now name r).host
  | .complete now name r => (host.complete b disk now name r).host
  | .completeText now name r => (host.completeText b disk now name r).host
  | .embed now name input => (host.embed b disk now name input).host
  | .requestWeights now name => (host.requestWeights disk now name).2
  | .release => host.release.host
  | .shutdown => host.shutdown.host
  | .restock store => { host with store }

def residentMoves (host : Host S M C) (now : Download.Stamp) (name : String) :
    List Download.Move :=
  if host.residentName = some name then []
  else
    match host.store.lookup name with
    | none => []
    | some d => if d.localFile.isSome then [] else [.request now d]

def downloadMoves (host : Host S M C) : Operation → List Download.Move
  | .makeResident now name | .embed now name _ => host.residentMoves now name
  | .stream now name r | .complete now name r | .completeText now name r =>
    match r.check with
    | .error _ => []
    | .ok () => host.residentMoves now name
  | .requestWeights now name => (host.store.lookup name).toList.map (.request now)
  | .shutdown => [.abandon]
  | .release | .restock _ => []

private theorem downloads_install (b : Backend S M C) (host : Host S M C) (name : String)
    (d : Descriptor)
    (weights : Path) : (host.install b name d weights).host.downloads = host.downloads := by
  unfold install
  dsimp only
  split
  next => rfl
  next => split <;> rfl

private theorem downloads_weightsFor (host : Host S M C) (disk : Disk) (now : Download.Stamp)
    (d : Descriptor) : (host.weightsFor disk now d).2.downloads =
      if d.localFile.isSome then host.downloads else (host.downloads.request disk now d).2 := by
  unfold weightsFor requestRecord
  cases d.localFile with
  | some file => rfl
  | none =>
    dsimp only
    split <;> rfl

private theorem downloads_makeResident (b : Backend S M C) (host : Host S M C) (disk : Disk)
    (now : Download.Stamp) (name : String) :
    (host.makeResident b disk now name).host.downloads =
      ((Download.World.mk host.downloads disk).run (host.residentMoves now name)).1.table := by
  unfold makeResident residentMoves
  by_cases hname : host.residentName = some name
  · simp [hname]
  · rw [if_neg hname, if_neg hname]
    cases hlookup : host.store.lookup name with
    | none => rfl
    | some d =>
      have hweights := host.downloads_weightsFor disk now d
      have hrequest : ((Download.World.mk host.downloads disk).run
          (if d.localFile.isSome then [] else [.request now d])).1.table =
          if d.localFile.isSome then host.downloads else (host.downloads.request disk now d).2 := by
        split <;> rfl
      rw [hrequest, ← hweights]
      dsimp only
      split
      next hfound => rw [hfound]
      next hfound =>
        rw [hfound]
        exact downloads_install b _ name d _

private theorem downloads_use {α : Type} (b : Backend S M C) (host : Host S M C) (disk : Disk)
    (now : Download.Stamp) (name : String) (refuse : HostError → α)
    (work : Resident M C → α × C × List Call) :
    (host.use b disk now name refuse work).host.downloads =
      ((Download.World.mk host.downloads disk).run (host.residentMoves now name)).1.table := by
  rw [← host.downloads_makeResident b]
  unfold use
  dsimp only
  split <;> rfl

private theorem downloads_stream (b : Backend S M C) (host : Host S M C) (disk : Disk)
    (now : Download.Stamp) (name : String) (r : Completion.Request) :
    (host.stream b disk now name r).host.downloads =
      ((Download.World.mk host.downloads disk).run
        (host.downloadMoves (.stream now name r))).1.table := by
  simp only [stream, downloadMoves]
  cases r.check with
  | error error => rfl
  | ok => exact host.downloads_use b disk now name _ _

private theorem downloadMoves_cases (host : Host S M C) (op : Operation) :
    host.downloadMoves op = [] ∨ host.downloadMoves op = [.abandon] ∨
      ∃ now d, host.downloadMoves op = [.request now d] := by
  have hresident : ∀ now name, host.residentMoves now name = [] ∨
      ∃ now' d, host.residentMoves now name = [.request now' d] := by
    intro now name
    unfold residentMoves
    split
    next => exact .inl rfl
    next =>
      split
      next => exact .inl rfl
      next d _ =>
        split
        next => exact .inl rfl
        next => exact .inr ⟨now, d, rfl⟩
  cases op with
  | makeResident now name | embed now name => exact (hresident now name).imp_right .inr
  | stream now name r | complete now name r | completeText now name r =>
    simp only [downloadMoves]
    split
    next => exact .inl rfl
    next => exact (hresident now name).imp_right .inr
  | requestWeights now name =>
    simp only [downloadMoves]
    cases host.store.lookup name with
    | none => exact .inl rfl
    | some d => exact .inr (.inr ⟨now, d, rfl⟩)
  | shutdown => exact .inr (.inl rfl)
  | release | restock => exact .inl rfl

/-- An operation does to the downloads what it asks of them. -/
theorem downloads_operate (b : Backend S M C) (host : Host S M C) (disk : Disk) (op : Operation) :
    (host.operate b disk op).downloads =
      ((Download.World.mk host.downloads disk).run (host.downloadMoves op)).1.table := by
  cases op with
  | makeResident now name => exact host.downloads_makeResident b disk now name
  | stream now name r | complete now name r | completeText now name r =>
    exact host.downloads_stream b disk now name r
  | embed now name input => exact host.downloads_use b disk now name _ _
  | requestWeights now name =>
    simp only [operate, requestWeights, downloadMoves, requestRecord]
    split
    next hlookup => simp [hlookup]
    next d hlookup => simp [hlookup, Download.World.run_cons, Download.World.move]
  | release | shutdown | restock => rfl

end Host

namespace Host

inductive Move where
  | operate (op : Operation)
  | downloads (m : Download.Move)

structure World (S M C : Type) where
  host : Host S M C
  disk : Disk

namespace World

variable {S M C : Type}

def start (settings : Settings) (store : Store) (state : S) (disk : Disk) : World S M C :=
  ⟨.start settings store state, disk⟩

def downloads (w : World S M C) : Download.World := ⟨w.host.downloads, w.disk⟩

def move (b : Backend S M C) (w : World S M C) : Move → World S M C × List Download.Notice
  | .operate op =>
    let host := w.host.operate b w.disk op
    (⟨host, w.disk⟩,
      (host.downloads.jobs.drop w.host.downloads.jobs.length).map .started)
  | .downloads m =>
    let (downloads, notices) := w.downloads.move m
    (⟨{ w.host with downloads := downloads.table }, downloads.disk⟩, notices)

def run (b : Backend S M C) (w : World S M C) :
    List Move → World S M C × List Download.Notice
  | [] => (w, [])
  | m :: moves =>
    let (w, first) := w.move b m
    let (w, rest) := w.run b moves
    (w, first ++ rest)

theorem run_append (b : Backend S M C) (w : World S M C) (moves more : List Move) :
    (w.run b (moves ++ more)).1 = ((w.run b moves).1.run b more).1 := by
  induction moves generalizing w with
  | nil => rfl
  | cons m moves ih => exact ih (w.move b m).1

def seen (w : World S M C) : Move → List Download.Move
  | .operate op => w.host.downloadMoves op
  | .downloads m => [m]

def downloadMoves (b : Backend S M C) (w : World S M C) : List Move → List Download.Move
  | [] => []
  | m :: moves => w.seen m ++ (w.move b m).1.downloadMoves b moves

theorem exists_seen {b : Backend S M C} {w : World S M C} {moves : List Move} {m : Download.Move}
    (h : m ∈ w.downloadMoves b moves) :
    ∃ past move later, moves = past ++ move :: later ∧ m ∈ (w.run b past).1.seen move := by
  induction moves generalizing w with
  | nil => nomatch h
  | cons first moves ih =>
    rcases List.mem_append.mp h with hfirst | hmoves
    · exact ⟨[], first, moves, rfl, hfirst⟩
    · obtain ⟨past, move, later, rfl, hseen⟩ := ih hmoves
      exact ⟨first :: past, move, later, rfl, hseen⟩

theorem downloads_move (b : Backend S M C) (w : World S M C) (m : Move) :
    ((w.move b m).1.downloads, (w.move b m).2) = w.downloads.run (w.seen m) := by
  cases m with
  | downloads m => simp [move, downloads, seen, Download.World.run_cons]
  | operate op =>
    have htable := w.host.downloads_operate b w.disk op
    simp only [move, downloads, seen, htable]
    rcases w.host.downloadMoves_cases op with hnone | hend | ⟨now, d, hrequest⟩
    · simp [hnone]
    · have hdrop : w.host.downloads.abandon.jobs.drop w.host.downloads.jobs.length = [] :=
        List.drop_eq_nil_of_le (List.length_filter_le _ _)
      simp [hend, Download.World.run_cons, Download.World.move, hdrop]
    · simp [hrequest, Download.World.run_cons, Download.World.move]

theorem downloads_run (b : Backend S M C) (w : World S M C) (moves : List Move) :
    ((w.run b moves).1.downloads, (w.run b moves).2) =
      w.downloads.run (w.downloadMoves b moves) := by
  induction moves generalizing w with
  | nil => rfl
  | cons m moves ih =>
    rw [downloadMoves, Download.World.run_append, ← downloads_move, ← ih]
    rfl

/-- Whatever happens with a host and its downloads, in any order: the downloads see a run of their
own, and it has a good account. -/
theorem account_run (b : Backend S M C) (settings : Settings) (store : Store) (state : S)
    (disk : Disk) (moves : List Move) :
    let w := start (M := M) (C := C) settings store state disk
    let asked := w.downloadMoves b moves
    let downloads := Download.World.start settings.modelsDirectory settings.client disk
    (w.run b moves).1.downloads = (downloads.run asked).1 ∧
      (w.run b moves).2 = (downloads.run asked).2 ∧ Download.Account downloads asked := by
  intro w asked downloads
  have hrun := w.downloads_run b moves
  have hstart : w.downloads = downloads := rfl
  rw [hstart] at hrun
  exact ⟨congrArg Prod.fst hrun, congrArg Prod.snd hrun, Download.World.account _ _ _ _⟩

end World

end Host

end ModelHost
