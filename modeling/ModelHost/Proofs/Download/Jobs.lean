import ModelHost.Proofs.Download.Job
import ModelHost.Proofs.Download.World

/-!
The jobs of a run: where the jobs after a move come from, and what the notices of a move are.
-/

namespace ModelHost.Download

def fetches (notices : List Notice) : List Fetch :=
  notices.filterMap fun | .fetched fetch => some fetch | _ => none

def starts (notices : List Notice) : List Job :=
  notices.filterMap fun | .started job => some job | _ => none

@[simp] theorem fetches_nil : fetches [] = [] := rfl

@[simp] theorem fetches_append (notices more : List Notice) :
    fetches (notices ++ more) = fetches notices ++ fetches more := List.filterMap_append

@[simp] theorem starts_nil : starts [] = [] := rfl

@[simp] theorem starts_append (notices more : List Notice) :
    starts (notices ++ more) = starts notices ++ starts more := List.filterMap_append

namespace World

variable {w : World} {m : Move} {job : Job}

@[simp] theorem starts_map_started (jobs : List Job) : starts (jobs.map .started) = jobs := by
  induction jobs with
  | nil => rfl
  | cons job jobs ih =>
    have hone : starts ((job :: jobs).map .started) = job :: starts (jobs.map .started) := rfl
    rw [hone, ih]

@[simp] theorem fetches_map_started (jobs : List Job) : fetches (jobs.map .started) = [] := by
  simp [fetches]

inductive Became (w : World) : Move → Job → Prop where
  | kept {m : Move} {job : Job} (hjob : job ∈ w.table.jobs)
      (hstill : ∀ now, m ≠ .advance now job.model) : Became w m job
  | born {now : Stamp} {d : Descriptor} {job : Job} (hrecord : w.table.records[d.name]? = none)
      (hbirth : (w.table.birth w.disk now d).2 = some job) : Became w (.request now d) job
  | advanced {now : Stamp} {name : String} {old : Job} (hold : w.table.job? name = some old)
      (houtcome : (old.advance w.disk).1.outcome? = none) :
    Became w (.advance now name) (old.advance w.disk).1
  | continued {name : String} {result : Except Cause Unit} {old : Job}
      (hold : w.table.transfer? name = some old) :
    Became w (.transferEnded name result) (old.transferEnded result)

theorem became (h : job ∈ (w.move m).1.table.jobs) : w.Became m job := by
  cases m with
  | query name => exact .kept h (by simp)
  | disturb disk => exact .kept h (by simp)
  | abandon => exact .kept (List.mem_filter.mp h).1 (by simp)
  | request now d =>
    simp only [move] at h
    cases hrecord : w.table.records[d.name]? with
    | some record =>
      rw [Table.request_of_record hrecord] at h
      exact .kept h (by simp)
    | none =>
      rw [Table.request_of_none hrecord] at h
      rcases List.mem_append.mp h with hold | hnew
      · exact .kept hold (by simp)
      · exact .born hrecord (Option.mem_toList.mp hnew)
  | advance now name =>
    simp only [move] at h
    cases hold : w.table.job? name with
    | none =>
      rw [w.table.advance_of_none hold] at h
      refine .kept h ?_
      intro now' hsame
      exact Table.job?_eq_none_iff.mp hold job h (Move.advance.inj hsame).2.symm
    | some old =>
      obtain ⟨phase, disk', hnext, -⟩ := old.advance_spec w.disk
      obtain rfl := (Table.job?_mem hold).2
      rcases w.table.advance_cases hold w.disk now with ⟨outcome, -, hadvance⟩ | ⟨hnone, hadvance⟩
      · rw [hadvance] at h
        obtain ⟨hjob, hmodel⟩ := (Table.mem_jobs_conclude _).mp h
        refine .kept hjob ?_
        intro now' hsame
        exact hmodel (Move.advance.inj hsame).2.symm
      · rw [hadvance] at h
        rcases Table.mem_jobs_replaceJob _ h with rfl | ⟨hjob, hmodel⟩
        · exact .advanced hold hnone
        · refine .kept hjob ?_
          intro now' hsame
          exact hmodel (by rw [hnext, Job.model_next, (Move.advance.inj hsame).2])
  | report name received total =>
    simp only [move, Table.report] at h
    split at h
    next => exact .kept h (by simp)
    next => exact .kept (by simpa using h) (by simp)
  | transferEnded name result =>
    simp only [move, Table.transferEnded] at h
    split at h
    next => exact .kept h (by simp)
    next old hold =>
      rcases Table.mem_jobs_replaceJob _ h with rfl | ⟨hjob, -⟩
      · exact .continued hold
      · exact .kept hjob (by simp)

theorem starts_move (w : World) (m : Move) : starts (w.move m).2 = [] ∨
    ∃ now d, m = .request now d ∧ w.table.records[d.name]? = none ∧
      starts (w.move m).2 = (w.table.birth w.disk now d).2.toList := by
  cases m with
  | query | report | transferEnded | abandon | disturb => exact .inl rfl
  | advance now name =>
    left
    simp only [move, advanced, starts_append]
    cases (w.table.advance w.disk now name).2.2 <;> split <;> rfl
  | request now d =>
    cases hrecord : w.table.records[d.name]? with
    | some record =>
      left
      simp [move, Table.request_of_record hrecord]
    | none =>
      refine .inr ⟨now, d, rfl, hrecord, ?_⟩
      simp [move, Table.request_of_none hrecord]

theorem fetches_advance (w : World) (now : Stamp) (name : String) :
    fetches (w.move (.advance now name)).2 =
      ((w.table.job? name).filter (·.phase = .beginTransfer)).toList.map Job.fetch := by
  have hended : ∀ before after : Table,
      fetches (if (before.job? name).isSome && (after.job? name).isNone then [.ended name]
        else []) = [] := by
    intro before after
    split <;> rfl
  simp only [move, advanced, fetches_append, hended, List.append_nil]
  cases hjob : w.table.job? name with
  | none =>
    rw [w.table.advance_of_none hjob]
    rfl
  | some job =>
    have hfetch : (w.table.advance w.disk now name).2.2 =
        if job.phase = .beginTransfer then some job.fetch else none := by
      rcases w.table.advance_cases hjob w.disk now with ⟨outcome, -, hadvance⟩ | ⟨-, hadvance⟩
        <;> rw [hadvance]
    rw [hfetch]
    by_cases hphase : job.phase = .beginTransfer
    · rw [if_pos hphase, Option.filter_some_pos (by simpa using hphase)]
      rfl
    · rw [if_neg hphase, Option.filter_some_neg (by simpa using hphase)]
      rfl

theorem fetches_move (w : World) (m : Move) : fetches (w.move m).2 = [] ∨
    ∃ now name job, m = .advance now name ∧ w.table.job? name = some job ∧
      job.phase = .beginTransfer ∧ fetches (w.move m).2 = [job.fetch] := by
  cases m with
  | query | report | transferEnded | abandon | disturb => exact .inl rfl
  | request now d =>
    exact .inl (fetches_map_started _)
  | advance now name =>
    rw [fetches_advance]
    cases hjob : (w.table.job? name).filter (·.phase = .beginTransfer) with
    | none => exact .inl rfl
    | some job =>
      obtain ⟨hsome, hphase⟩ := Option.filter_eq_some_iff.mp hjob
      exact .inr ⟨now, name, job, rfl, hsome, by simpa using hphase, rfl⟩

end World

end ModelHost.Download
