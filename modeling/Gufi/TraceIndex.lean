import Gufi.DupdirRace
import Gufi.IndexBuild
import Gufi.TraceScout

/-!
# Building an index from traces

The scouts of `gufi_trace2index` enqueue a row for each directory line. A thread that takes a row
duplicates the directory, with those above it that are missing, and fills a new `db.db` from the
lines of the entries. The calls of the threads interleave. Rows may be taken while the scouts are
still at work, and are all there from the beginning here.

The program stops at a directory line that cannot be parsed; such a line is left out here. Out of
space, it stops too; such a run is one that ends early.
-/

namespace Gufi.TraceIndex

open UnixAccess Relation
open IndexBuild (Place placeOf)
open Trace (linetowork EntryData ScoutTraceArgs scoutTrace splitFile stanzaLines)

section Data

/-- A row that is taken: the directory line, and the lines of the entries with what is in the buffer
behind them. -/
structure Stanza where
  line : Bytes
  entries : List (Bytes × Bytes)

/-- What the scouts have found. -/
def Stanza.scouted (st : Stanza) : Bytes × List Bytes := (st.line, st.entries.map Prod.fst)

/-- What is written to `db.db` and beside it, and the databases of users that are listed. -/
structure Db where
  dir : IndexedDir
  userDbs : List (ℕ × Bytes)

/-- A directory that is made, and what is written. -/
structure Job where
  call : Dupdir.Task
  db : Db

end Data

section Program

variable (delim : UInt8) (nobody : Nobody) (indexParent : Bytes)

/-- `linetowork` in `process_nondir`. The length that it gets is that of the buffer. -/
def entryRow (entry : Bytes × Bytes) : Option (Trace.Work × EntryData) :=
  (linetowork delim (entry.1 ++ 0 :: entry.2) EntryData.zero).toOption

/-- What `process_nondir` writes for the rows, and what `processdir` writes for the directory. -/
def indexed (dir : Trace.Work) (ed : EntryData) (rows : List (Trace.Work × EntryData)) : Db :=
  let entries := rows.filter fun row => row.2.type ≠ 101
  let side := rows.foldl (trace2indexNondir nobody) .empty
  { dir :=
      { entries := entries.map fun row => insertdbgo { row.1 with pinode := 0 } row.2
        summary := insertsumdb (dir.name.drop (dir.name.length - Trace.basenameLen dir.name)) dir ed
          (entries.foldl sumit zeroit)
        xattrs := { side.inserts with pwd := side.inserts.pwd ++ (indexedEntry dir ed 0).rows } }
    userDbs := side.userDbs }

/-- The directory of the index for a directory of a trace. -/
def topath (dir : Trace.Work) : Place := placeOf (indexParent ++ slash :: dir.name)

def dupdirOf (dir : Trace.Work) : Dupdir.Task :=
  ⟨topath indexParent dir, dir.statuso.mode, dir.statuso.uid, dir.statuso.gid⟩

/-- `processdir`. -/
def Stanza.job (st : Stanza) : Option Job :=
  (linetowork delim st.line EntryData.zero).toOption.map fun (dir, ed) =>
    ⟨dupdirOf indexParent dir, indexed nobody dir ed (st.entries.filterMap (entryRow delim))⟩

/-- `enqueue_traces`: what the scouts find in a file that is split in parts. -/
def scouted (maxParts : ℕ) (file : Bytes) : List (Bytes × List Bytes) :=
  (splitFile ⟨delim, false⟩ file maxParts).flatMap fun range =>
    (scoutTrace ⟨delim, false⟩ file range.1 range.2).1.map (Trace.Row.stanza file)

end Program

section Runs

/-- The file system and the calls of `dupdir`, the databases, and the rows that are done. -/
structure State where
  dup : Dupdir.State
  dbs : Place → Option Db
  written : List Dupdir.Task

def State.start (fs : Dupdir.Fs) (dbs : Place → Option Db) : State := ⟨.start fs, dbs, []⟩

/-- `template_to_db` and what is written then. It fails if the directory is not there. -/
def State.write (templateToDb : Place → Bool) (s : State) (job : Job) : State where
  dup := s.dup
  dbs := if Dupdir.isDir s.dup.fs job.call.path && templateToDb job.call.path then
      Function.update s.dbs job.call.path (some job.db)
    else s.dbs
  written := job.call :: s.written

variable (made : Dupdir.Fs → Dupdir.Path → UInt32 → Dupdir.Attrs) (templateToDb : Place → Bool)
  (jobs : List Job)

def calls : List Dupdir.Task := jobs.map Job.call

/-- A thread makes its next call, or writes the database after the last one. -/
inductive Step : State → State → Prop
  | call (s : State) (d : Dupdir.State) (h : Dupdir.Step made (calls jobs) s.dup d) :
      Step s { s with dup := d }
  | write (s : State) (job : Job) (hjob : job ∈ jobs) (hdone : (s.dup.calls job.call).pc = .done)
      (hnew : job.call ∉ s.written) : Step s (s.write templateToDb job)

def Runs (s₀ s : State) : Prop := ReflTransGen (Step made templateToDb jobs) s₀ s

/-- All rows are done, and the calls of `dupdir` did not fail. -/
structure State.Finished (s : State) : Prop where
  calls : s.dup.Finished (calls jobs)
  written : ∀ job ∈ jobs, job.call ∈ s.written

end Runs

section Databases

variable {made : Dupdir.Fs → Dupdir.Path → UInt32 → Dupdir.Attrs} {templateToDb : Place → Bool}
  {jobs : List Job} {fs : Dupdir.Fs} {dbs : Place → Option Db} {s s' : State} {job : Job}

/-- The calls of a run are a run of their own. -/
theorem Runs.dup {s₀ : State} (h : Runs made templateToDb jobs s₀ s) :
    ReflTransGen (Dupdir.Step made (calls jobs)) s₀.dup s.dup := by
  induction h with
  | refl => exact .refl
  | tail _ hstep ih =>
      cases hstep with
      | call _ hcall => exact ih.tail hcall
      | write => exact ih

/-- What the databases are, as long as no call has failed. -/
structure Written (templateToDb : Place → Bool) (jobs : List Job) (dbs : Place → Option Db)
    (s : State) : Prop where
  done : ∀ job ∈ jobs, job.call ∈ s.written →
    s.dbs job.call.path = if templateToDb job.call.path then some job.db else dbs job.call.path
  rest : ∀ p, (∀ t ∈ s.written, t.path ≠ p) → s.dbs p = dbs p
  known : ∀ t ∈ s.written, t ∈ calls jobs

theorem Written.write (h : Written templateToDb jobs dbs s)
    (hnodup : ((calls jobs).map Dupdir.Task.path).Nodup) (hjob : job ∈ jobs)
    (hnew : job.call ∉ s.written) (hdir : Dupdir.isDir s.dup.fs job.call.path = true) :
    Written templateToDb jobs dbs (s.write templateToDb job) := by
  have hinj : ∀ j ∈ jobs, j.call.path = job.call.path → j = job := by
    intro j hj heq
    rw [calls, List.map_map] at hnodup
    exact List.inj_on_of_nodup_map hnodup hj hjob heq
  have hother : ∀ t ∈ s.written, t.path ≠ job.call.path := by
    intro t ht heq
    obtain ⟨j, hj, rfl⟩ := List.mem_map.mp (h.known t ht)
    obtain rfl := hinj j hj heq
    exact hnew ht
  have hdbs {p : Place} (hp : p ≠ job.call.path) : (s.write templateToDb job).dbs p = s.dbs p := by
    change (if _ then Function.update s.dbs job.call.path (some job.db) else s.dbs) p = s.dbs p
    split_ifs
    · exact Function.update_of_ne hp ..
    · rfl
  constructor
  · intro j hj hwritten
    rcases List.mem_cons.mp hwritten with heq | hwritten
    · obtain rfl := hinj j hj (by rw [heq])
      change (if _ then Function.update s.dbs j.call.path (some j.db) else s.dbs) j.call.path = _
      rw [hdir, Bool.true_and]
      split_ifs
      · exact Function.update_self ..
      · exact h.rest _ hother
    · rw [hdbs (hother _ hwritten), h.done j hj hwritten]
  · intro p hp
    rw [hdbs (Ne.symm (hp job.call (List.mem_cons_self ..)))]
    exact h.rest p fun t ht => hp t (List.mem_cons_of_mem _ ht)
  · intro t ht
    rcases List.mem_cons.mp ht with rfl | ht
    · exact List.mem_map_of_mem hjob
    · exact h.known t ht

/-- Whatever the order of the calls, each directory gets its own database. -/
theorem Runs.written (hwf : Dupdir.WellFormed fs)
    (hnodup : ((calls jobs).map Dupdir.Task.path).Nodup)
    (h : Runs made templateToDb jobs (.start fs dbs) s) :
    (∃ t ∈ calls jobs, (s.dup.calls t).failed = true) ∨ Written templateToDb jobs dbs s := by
  induction h with
  | refl => exact .inr ⟨(fun _ _ h => nomatch h), fun _ _ => rfl, nofun⟩
  | @tail s s' hrun hstep ih =>
      cases hstep with
      | call d hcall =>
          rcases ih with hfailed | ih
          · exact .inl (Dupdir.failed_step hcall hfailed)
          · exact .inr ⟨ih.done, ih.rest, ih.known⟩
      | write job hjob hdone hnew =>
          rcases ih with hfailed | ih
          · exact .inl hfailed
          rcases Dupdir.good_of_run hwf (Runs.dup hrun) with hfailed | hgood
          · exact .inl hfailed
          · have hdir := hgood.fine job.call (List.mem_map_of_mem hjob)
            rw [hdone] at hdir
            exact .inr (ih.write hnodup hjob hnew hdir)

/-- In the end, too, and nothing else has been written. -/
theorem Runs.dbs_eq (hwf : Dupdir.WellFormed fs)
    (hnodup : ((calls jobs).map Dupdir.Task.path).Nodup)
    (h : Runs made templateToDb jobs (.start fs dbs) s) (hdone : s.Finished jobs) :
    (∀ job ∈ jobs, s.dbs job.call.path =
      if templateToDb job.call.path then some job.db else dbs job.call.path) ∧
    ∀ p, (∀ job ∈ jobs, job.call.path ≠ p) → s.dbs p = dbs p := by
  have hwritten := (h.written hwf hnodup).resolve_left hdone.calls.unfailed
  refine ⟨fun job hjob => hwritten.done job hjob (hdone.written job hjob), fun p hp => ?_⟩
  apply hwritten.rest
  intro t ht
  obtain ⟨job, hjob, rfl⟩ := List.mem_map.mp (hwritten.known t ht)
  exact hp job hjob

end Databases

end Gufi.TraceIndex
