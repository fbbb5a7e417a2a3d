import Sark.H3.Qpack.Dynamics

/-!
# The table of a decoder

The dynamic table of a QPACK decoder over a run (`h3/src/qpack/decoder/ingress/`): the peer's
instructions set its capacity, duplicate entries and insert entries whose names and values come in
fragments.

* `Session.run_kept`: what is kept over any run.
* `Session.run_refers`: a reference is resolved to the live entry with its absolute index.
-/

namespace Sark.Qpack

open Compress (Entry Slot Layout Staged NameStage ValueStage)
open Compress.Staged (Stage Simulates DraftError)

namespace Decoder

open Dynamics (Core View)

/-- `dynamics::Error`. -/
inductive TableError
  | reference (relative len : ℕ)
  | count (current : ℕ)
  | insert (cause : DraftError)
  deriving DecidableEq, Repr

/-- `ingress::State`, less the instruction that is read: the entries with their stage, and the
count. -/
structure Table where
  entries : Staged.Session
  core : Core

namespace Table

/-- `State::table`. -/
def view (self : Table) : View Slot Unit :=
  ⟨self.entries.table.store, self.core⟩

/-- `Table::from_table`, of a plan's table. -/
def fromTable (layout : Layout) (limit max : ℕ) : Table :=
  ⟨.new layout limit, ⟨min max layout.capacity, 0⟩⟩

/-- `Core::duplicate`. -/
def duplicate (self : Table) (relative : ℕ) : Except TableError Table :=
  let len := self.entries.table.store.entries.len
  if relative ≥ len then .error (.reference relative len)
  else
    match self.core.next with
    | none => .error (.count self.core.insertCount)
    | some next =>
      match self.entries.table.duplicate relative with
      | .error cause => .error (.insert cause)
      | .ok table => .ok ⟨⟨table, .ready⟩, self.core.commit next⟩

/-- The commit of a value. -/
def commit (self : Table) : Except TableError Table :=
  match self.core.next with
  | none => .error (.count self.core.insertCount)
  | some next => .ok ⟨self.entries.apply .commit, self.core.commit next⟩

/-- `Action::SetCapacity`. -/
def setCapacity (self : Table) (capacity : ℕ) : Except Dynamics.CapacityError Table := do
  self.core.checkLimit capacity self.entries.table.store.layout.capacity
  .ok { self with entries := self.entries.apply (.setLimit capacity) }

/-- `Phase::reset`: an insertion that is not complete is lost. -/
def reset (self : Table) : Table :=
  { self with entries := self.entries.apply .rollback }

end Table

/-! ## Runs -/

/-- A table, and all insertions there were. -/
structure Session where
  table : Table
  history : List Entry

/-- What an instruction does to the table: it sets the capacity, duplicates an entry, or does
something to the insertion that is not complete, or commits it. -/
inductive Step
  | setCapacity (capacity : ℕ)
  | duplicate (relative : ℕ)
  | draft (op : Staged.Op) (isDraft : op.isDraft = true)
  | commit

namespace Session

/-- A new table. -/
def new (layout : Layout) (limit max : ℕ) : Session :=
  ⟨.fromTable layout limit max, []⟩

/-- A table with one more entry, which is its newest. -/
def insert (self : Session) (table : Table) : Session :=
  ⟨table, self.history ++ (table.view.entries.field 0).toList⟩

/-- One step. An instruction that fails resets the phase. -/
def step (self : Session) : Step → Session
  | .setCapacity capacity =>
    match self.table.setCapacity capacity with
    | .ok table => { self with table }
    | .error _ => { self with table := self.table.reset }
  | .duplicate relative =>
    match self.table.duplicate relative with
    | .ok table => self.insert table
    | .error _ => { self with table := self.table.reset }
  | .draft op _ => { self with table := { self.table with entries := self.table.entries.apply op } }
  | .commit =>
    -- Only a value is committed.
    match self.table.entries.phase with
    | .value =>
      match self.table.commit with
      | .ok table => self.insert table
      | .error _ => { self with table := self.table.reset }
    | _ => self

/-- A run. -/
def run (self : Session) (steps : List Step) : Session :=
  steps.foldl step self

/-- The entries of a table are the newest of all insertions, and every one of these is counted. -/
structure Kept (session : Session) : Prop where
  simulates : ∃ stage, Simulates session.table.entries stage ∧
    stage.table.entries <+: session.history.reverse
  count_eq : session.table.core.insertCount = session.history.length
  count_lt : session.table.core.insertCount < 2 ^ 64

variable {session : Session}

theorem kept_new {width indexed capacity : ℕ} {layout : Layout} (limit max : ℕ)
    (hlayout : Layout.new 2 width indexed capacity = .ok layout) :
    (Session.new layout limit max).Kept :=
  ⟨⟨_, Compress.Staged.simulates_new limit hlayout, List.prefix_refl _⟩, rfl, Nat.two_pow_pos 64⟩

theorem Kept.refers (h : session.Kept) : session.table.view.Refers session.history := by
  obtain ⟨stage, hsimulates, hnewest⟩ := h.simulates
  obtain ⟨records, htracks⟩ := hsimulates.tracks
  exact View.Shows.refers (.of_represents htracks.represents hnewest h.count_eq) h.count_lt

theorem Kept.evicted (h : session.Kept) {entries : Staged.Session} {stage next : Stage}
    (hnewest : stage.table.entries <+: session.history.reverse) (hnext : Simulates entries next)
    (hevicted : next.table.entries <+: stage.table.entries) :
    ({ session with table := { session.table with entries } } : Session).Kept :=
  ⟨⟨next, hnext, hevicted.trans hnewest⟩, h.count_eq, h.count_lt⟩

theorem Kept.insert (h : session.Kept) {entries : Staged.Session} {stage : Stage} {entry : Entry}
    {queue : Compress.Table} {next : ℕ} (hfits : entry.size ≤ queue.limit)
    (hnewest : queue.entries <+: session.history.reverse)
    (hnext : Simulates entries stage) (hpublish : stage.table = queue.insert entry)
    (hcount : session.table.core.next = some next) :
    (session.insert ⟨entries, session.table.core.commit next⟩).Kept := by
  obtain ⟨records, htracks⟩ := hnext.tracks
  have hinsert : stage.table = queue.publish entry hfits := hpublish.trans (dif_pos hfits)
  -- The newest entry of the table is the one that is inserted.
  have hfirst : entries.table.store.field 0 = some entry := by
    rw [htracks.represents.field_eq, hinsert]
    rfl
  have hhistory : (session.insert ⟨entries, session.table.core.commit next⟩).history =
      session.history ++ [entry] := by
    show session.history ++ (entries.table.store.field 0).toList = _
    rw [hfirst, Option.toList_some]
  rw [Core.next, checkedAdd] at hcount
  split_ifs at hcount with hlt
  obtain rfl := Option.some.inj hcount
  refine ⟨⟨stage, hnext, ?_⟩, ?_, hlt⟩
  · rw [hhistory, hpublish, List.reverse_append, List.reverse_singleton, List.singleton_append]
    exact (Dynamics.insert_isPrefix queue entry).trans ((List.prefix_cons_inj entry).mpr hnewest)
  · rw [hhistory, List.length_append, List.length_singleton, ← h.count_eq]
    rfl

theorem copy_table {stage : NameStage} {value : ValueStage} {index : ℕ}
    (h : stage.copy index = .ok value) : value.table = stage.table := by
  rw [NameStage.copy] at h
  split at h
  next => exact absurd h (by simp)
  next =>
    obtain rfl := Except.ok.inj h
    rfl

/-- Whatever is done to an insertion that is not complete leaves the queue as it is. -/
theorem stage_table_apply (stage : Stage) {op : Staged.Op} (hdraft : op.isDraft = true) :
    (stage.apply op).table = stage.table := by
  cases op with
  | setLimit limit => cases hdraft
  | reject => cases hdraft
  | duplicate index => cases hdraft
  | commit => cases hdraft
  | rollback => rfl
  | retract writes => rfl
  | begin =>
    rw [Stage.apply]
    split
    next begun hbegun => exact (Compress.Table.tryBegin_eq_some hbegun).1
    next => rfl
  | write slices =>
    rcases stage with table | stage | stage
    · rfl
    · show ((stage.write slices.flatten).toOption.getD stage).table = stage.table
      rw [NameStage.write]
      split <;> rfl
    · show ((stage.write slices.flatten).toOption.getD stage).table = stage.table
      rw [ValueStage.write]
      split <;> rfl
  | truncate len =>
    rcases stage with table | stage | stage
    · rfl
    · rfl
    · show (stage.truncate len).table = stage.table
      rw [ValueStage.truncate]
      split <;> rfl
  | copyName index =>
    rcases stage with table | stage | stage
    · rfl
    · rw [Stage.apply]
      split
      next value hvalue => exact copy_table hvalue
      next => rfl
    · rfl
  | replaceName first second =>
    rcases stage with table | stage | stage
    · rfl
    · rw [Stage.apply]
      split
      next value hvalue =>
        rw [NameStage.setName] at hvalue
        split_ifs at hvalue
        obtain rfl := Except.ok.inj hvalue
        rfl
      next => rfl
    · rfl
  | finish =>
    rcases stage with table | stage | stage
    · rfl
    · rw [Stage.apply]
      split
      next value hvalue =>
        rw [NameStage.finish] at hvalue
        split_ifs at hvalue
        obtain rfl := Except.ok.inj hvalue
        rfl
      next => rfl
    · rfl

theorem value_of_phase {entries : Staged.Session} {stage : Stage} (h : Simulates entries stage)
    (hphase : entries.phase = .value) : ∃ value, stage = .value value := by
  cases h with
  | ready => exact absurd hphase (by simp)
  | name => exact absurd hphase (by simp)
  | value => exact ⟨_, rfl⟩

theorem Kept.reset (h : session.Kept) : ({ session with table := session.table.reset }).Kept := by
  obtain ⟨stage, hsimulates, hnewest⟩ := h.simulates
  exact h.evicted hnewest (hsimulates.apply .rollback) (List.prefix_refl _)

theorem Kept.step (h : session.Kept) (step : Step) : (session.step step).Kept := by
  obtain ⟨stage, hsimulates, hnewest⟩ := h.simulates
  obtain ⟨records, htracks⟩ := hsimulates.tracks
  cases step with
  | setCapacity capacity =>
    rw [Session.step]
    split
    next table htable =>
      rw [Table.setCapacity, Except.bind_eq_ok_iff] at htable
      obtain ⟨-, -, hnext⟩ := htable
      obtain rfl := Except.ok.inj hnext
      exact h.evicted hnewest (hsimulates.apply _) (Compress.evict_isPrefix _)
    next => exact h.reset
  | draft op hdraft =>
    have happly := hsimulates.apply op
    refine h.evicted hnewest happly ?_
    rw [stage_table_apply stage hdraft]
  | duplicate relative =>
    rw [Session.step]
    split
    next table htable =>
      rw [Table.duplicate] at htable
      split_ifs at htable with hrelative
      split at htable
      next => exact absurd htable (by simp)
      next next hcount =>
        split at htable
        next => exact absurd htable (by simp)
        next entries hentries =>
          obtain rfl := Except.ok.inj htable
          obtain ⟨hok, -⟩ := htracks.duplicate relative
          obtain ⟨records', hnext⟩ := hok entries hentries
          have hlt : relative < stage.table.entries.length := by
            rw [← htracks.represents.len_eq]
            exact Nat.not_le.mp hrelative
          have hfield : stage.table.field relative = some stage.table.entries[relative] :=
            List.getElem?_eq_getElem hlt
          have hfits : stage.table.entries[relative].size ≤ stage.table.limit :=
            (Compress.size_le_totalSize (List.getElem_mem hlt)).trans stage.table.size_le
          refine h.insert hfits hnewest (.ready hnext) ?_ hcount
          show stage.table.duplicate relative = _
          rw [Compress.Table.duplicate, hfield]
    next => exact h.reset
  | commit =>
    rw [Session.step]
    split
    next hphase =>
      split
      next table htable =>
        rw [Table.commit] at htable
        split at htable
        next => exact absurd htable (by simp)
        next next hcount =>
          obtain rfl := Except.ok.inj htable
          obtain ⟨value, rfl⟩ := value_of_phase hsimulates hphase
          have hpublish : ((Stage.value value).apply .commit).table =
              value.table.insert ⟨value.name, value.value⟩ := value.commit_eq_insert
          have hfits : Entry.size ⟨value.name, value.value⟩ ≤ value.table.limit := value.fits
          exact h.insert hfits hnewest (hsimulates.apply .commit) hpublish hcount
      next => exact h.reset
    next => exact h

theorem run_kept (h : session.Kept) (steps : List Step) : (session.run steps).Kept := by
  induction steps generalizing session with
  | nil => exact h
  | cons step steps ih => exact ih (h.step step)

/-- References into the table of a decoder are resolved to its live entries, over any run. -/
theorem run_refers {width indexed capacity : ℕ} {layout : Layout} (limit max : ℕ)
    (hlayout : Layout.new 2 width indexed capacity = .ok layout) (steps : List Step) :
    ((Session.new layout limit max).run steps).table.view.Refers
      ((Session.new layout limit max).run steps).history :=
  (run_kept (kept_new limit max hlayout) steps).refers

end Session

end Decoder

end Sark.Qpack
