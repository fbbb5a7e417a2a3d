import Sark.H2.Hpack.Meaning
import Sark.H2.Hpack.Modes

/-!
# The table behind a block

All blocks of a connection share one dynamic table, so what a block does to it must not depend on
who reads its fields. `evolve` is what a representation does to the decoder when nobody looks at the
field: it reads the table and the contents of the strings, and nothing of the budget but whether a
size update may still stand.

* `Mode.block_tracks`: the decoder over any consumer evolves like that, unless the consumer itself
  fails.
* `Decoder.discard_evolves`: a block that can be discarded is accepted by every other consumer that
  does not fail, with the same decoder behind it.
-/

namespace Sark.Hpack

namespace Modes

open Metadata Compress

/-! ## Evolution -/

/-- The end of the size updates, before the first field. -/
def Resize.close : Resize → Option ℕ → Option Resize
  | .closed, _ => some .closed
  | .leading, none => some .closed
  | .leading, some _ => none

/-- The decoder behind a literal. -/
def insert (decoder : Decoder) (index : Index) (entry : Entry) : Decoder :=
  match index with
  | .plain | .never => decoder
  | .indexed => ⟨decoder.table.insert entry, decoder.core⟩

/-- What a representation does to the decoder. -/
def evolve (decoder : Decoder) (resize : Resize) : Kind → Option (Decoder × Resize)
  | .indexed index =>
    (Resize.close resize decoder.core.requiredResize).bind fun resize =>
      (lookup decoder.table index).toOption.map fun _ => (decoder, resize)
  | .literal index name value =>
    (Resize.close resize decoder.core.requiredResize).bind fun resize =>
      (name.contents decoder.table).bind fun name =>
        value.contents.map fun value => (insert decoder index ⟨name, value⟩, resize)
  | .resize size =>
    if resize = .leading ∧ size ≤ decoder.core.requiredResize.getD decoder.core.maxSizeSetting then
      some (⟨decoder.table.setLimit size, { decoder.core with requiredResize := none }⟩, resize)
    else none

/-- What a block does to the decoder. -/
def evolveAll (decoder : Decoder) (resize : Resize) (input : Bytes) : Option Decoder :=
  match input with
  | [] => decoder.finish.toOption
  | first :: rest =>
    match _ : Kind.parse (first :: rest) with
    | .error _ => none
    | .ok (kind, tail) =>
      match evolve decoder resize kind with
      | none => none
      | some (decoder, resize) => evolveAll decoder resize tail
termination_by input.length
decreasing_by exact Kind.length_of_parse ‹_›

theorem evolveAll_cons (decoder : Decoder) (resize : Resize) (first : UInt8) (rest : Bytes) :
    evolveAll decoder resize (first :: rest) =
      (Kind.parse (first :: rest)).toOption.bind fun parsed =>
        (evolve decoder resize parsed.1).bind fun next => evolveAll next.1 next.2 parsed.2 := by
  rw [evolveAll]
  split
  next hparse => simp only [hparse, Except.toOption_error, Option.bind_none]
  next hparse =>
    simp only [hparse, Except.toOption_ok, Option.bind_some]
    split <;> simp_all

/-- How much of the header list a consumer may have does not matter to a representation. -/
theorem evolve_setMaxList (decoder : Decoder) (max : Option ℕ) (resize : Resize) (kind : Kind) :
    evolve (decoder.setMaxList max) resize kind =
      (evolve decoder resize kind).map fun next => (next.1.setMaxList max, next.2) := by
  cases kind with
  | indexed index => simp [evolve, Decoder.setMaxList, Option.map_bind, Function.comp_def]
  | literal index name value =>
    cases index <;>
      simp [evolve, insert, Decoder.setMaxList, Option.map_bind, Function.comp_def]
  | resize size =>
    simp only [evolve, apply_ite (Option.map _), Option.map_some, Option.map_none]
    rfl

theorem finish_setMaxList (decoder : Decoder) (max : Option ℕ) :
    (decoder.setMaxList max).finish.toOption =
      decoder.finish.toOption.map fun next => next.setMaxList max := by
  unfold Decoder.finish
  cases h : decoder.core.requiredResize <;> simp [Decoder.setMaxList, h]

theorem evolveAll_setMaxList (decoder : Decoder) (max : Option ℕ) (resize : Resize)
    (input : Bytes) :
    evolveAll (decoder.setMaxList max) resize input =
      (evolveAll decoder resize input).map fun next => next.setMaxList max := by
  induction hlen : input.length using Nat.strong_induction_on generalizing decoder resize input with
  | _ len ih =>
    cases input with
    | nil => simp only [evolveAll, finish_setMaxList]
    | cons first rest =>
      rw [evolveAll_cons, evolveAll_cons]
      cases hparse : Kind.parse (first :: rest) with
      | error cause => rfl
      | ok parsed =>
        have hshorter : parsed.2.length < (first :: rest).length := Kind.length_of_parse hparse
        simp only [Except.toOption_ok, Option.bind_some, evolve_setMaxList]
        cases evolve decoder resize parsed.1 with
        | none => rfl
        | some next => exact ih _ (hlen ▸ hshorter) next.1 next.2 parsed.2 rfl

/-! ## Outcomes that follow a meaning -/

section Tracks

variable {ε α β γ δ : Type}

/-- An outcome that is what a meaning says it is. A failure of the sink says nothing. -/
def Tracks (outcome : Except (Failure ε) α) (state : α → β) (meaning : Option β) : Prop :=
  match outcome with
  | .ok result => meaning = some (state result)
  | .error (.decode _) => meaning = none
  | .error (.sink _) => True

theorem Tracks.bind {outcome : Except (Failure ε) α} {state : α → β} {meaning : Option β}
    {next : α → Except (Failure ε) γ} {state' : γ → δ} {follow : β → Option δ}
    (h : Tracks outcome state meaning)
    (hnext : ∀ result, outcome = .ok result → Tracks (next result) state' (follow (state result))) :
    Tracks (outcome >>= next) state' (meaning.bind follow) := by
  cases outcome with
  | error failure =>
    cases failure with
    | sink cause => trivial
    | decode cause =>
      rw [show meaning = none from h]
      exact rfl
  | ok result =>
    rw [show meaning = some (state result) from h]
    exact hnext result rfl

theorem tracks_decode {answer : Except Error α} {state : α → β} {meaning : Option β}
    (h : answer.toOption.map state = meaning) :
    Tracks (answer.mapError (Failure.decode (ε := ε))) state meaning := by
  subst h
  cases answer <;> rfl

theorem tracks_checked {answer : Except Error α} {meaning : Option β}
    (h : answer.toOption.isSome = meaning.isSome) :
    Tracks (answer.mapError (Failure.decode (ε := ε))) (fun _ => ()) (meaning.map fun _ => ()) := by
  refine tracks_decode ?_
  cases answer <;> cases meaning <;> simp_all

theorem Tracks.map {outcome : Except (Failure ε) α} {f : α → γ} {state : γ → β}
    {meaning : Option β} (h : Tracks outcome (fun a => state (f a)) meaning) :
    Tracks (outcome.map f) state meaning := by
  cases outcome with
  | error failure => cases failure <;> exact h
  | ok result => exact h

theorem Tracks.andThen {outcome : Except (Failure ε) α} {state : α → β} {meaning : Option β}
    {next : α → γ} {state' : γ → β} (h : Tracks outcome state meaning)
    (hnext : ∀ result, state' (next result) = state result) :
    Tracks (outcome >>= fun result => pure (next result)) state' meaning := by
  cases outcome with
  | error failure => cases failure <;> exact h
  | ok result => exact Eq.trans h (congrArg some (hnext result).symm)

theorem Tracks.follow {outcome : Except (Failure ε) α} {meaning : Option β}
    {next : α → Except (Failure ε) γ} {state : γ → δ} {follow : β → Option δ}
    (h : Tracks outcome (fun _ => ()) (meaning.map fun _ => ()))
    (hnext : ∀ result value, outcome = .ok result → meaning = some value →
      Tracks (next result) state (follow value)) :
    Tracks (outcome >>= next) state (meaning.bind follow) := by
  cases meaning with
  | none =>
    cases outcome with
    | error failure => cases failure <;> trivial
    | ok result => exact absurd h (by simp [Tracks])
  | some value =>
    cases outcome with
    | ok result => exact hnext result value rfl rfl
    | error failure =>
      cases failure with
      | sink cause => trivial
      | decode cause => exact absurd h (by simp [Tracks])

theorem tracks_sink {answer : Except ε α} {next : α → Except (Failure ε) γ} {state : γ → δ}
    {meaning : Option δ}
    (h : ∀ result, answer = .ok result → Tracks (next result) state meaning) :
    Tracks (answer.mapError Failure.sink >>= next) state meaning := by
  cases answer with
  | error cause => trivial
  | ok result => exact h result rfl

end Tracks

/-! ## Strings -/

end Modes

namespace Encoded

open Metadata Modes

theorem lawfulSink_scan : LawfulSink Scan.write (fun _ => True) where
  nil := fun _ _ => rfl
  valid_of_ok := fun _ => trivial
  append_ok := by
    rintro scan next first second ⟨rfl⟩
    exact congrArg Except.ok (List.foldl_append ..)
  append_error := by
    intro scan error
    exact error.elim

theorem decodedLen_toOption (self : Encoded) :
    self.decodedLen.toOption.isSome = self.contents.isSome := by
  obtain ⟨payload, encoding⟩ := self
  cases encoding with
  | plain => rfl
  | huffman =>
    simp only [decodedLen, contents, Encoding.decode, Huffman.Decoder.feedCount,
      Transducer.count_eq, Huffman.Decoder.run]
    cases Transducer.run Huffman.Decoder.step Huffman.Decoder.new payload with
    | none => rfl
    | some result =>
      simp only [Option.map_some, Option.bind_some]
      split <;> simp_all

theorem validate_toOption {self : Encoded} (hlen : self.payload.length ≤ maxLiteralLen) :
    self.validate.toOption.isSome = self.contents.isSome := by
  cases hrun : (Cursor.new self.payload.length self.encoding).run self.payload with
  | none =>
    have hnone : ∃ cause, (Cursor.new self.payload.length self.encoding).feedInto Scan.write
        self.payload .empty = .error cause :=
      Cursor.feedInto_of_not_run lawfulSink_scan trivial hrun
    obtain ⟨cause, hfed⟩ := hnone
    simp [validate, hfed, not_contents_of_run hlen hrun]
  | some result =>
    obtain ⟨cursor, output⟩ := result
    obtain ⟨progress, hfed⟩ := Cursor.feedInto_of_run lawfulSink_scan trivial hrun
      (rfl : Scan.write .empty output = _)
    simp only [validate, hfed, contents, Cursor.decode_of_run hrun]
    cases cursor.finish <;> rfl

theorem decodeInto_toOption (self : Encoded) (limit : Bound) :
    (self.decodeInto limit.option).toOption.isSome = self.contents.isSome := by
  cases hcontents : self.contents with
  | none => rw [decodeInto_of_not_contents hcontents]; rfl
  | some contents =>
    obtain ⟨scratch, hdecode, -⟩ := decodeInto_of_contents hcontents limit
    rw [hdecode]
    rfl

theorem decodeSpan_toOption (self : Encoded) (limit : Bound) :
    (self.decodeSpan limit.option).toOption.isSome = self.contents.isSome := by
  rw [decodeSpan]
  cases hcontents : self.contents with
  | none => rw [decodeNamed_of_not_contents hcontents]; rfl
  | some contents =>
    obtain ⟨scratch, hdecode, -⟩ := decodeNamed_of_contents hcontents limit
    rw [hdecode]
    rfl

end Encoded

namespace Modes

open Metadata Compress

/-! ## Literals -/

/-- The strings of a representation are of admissible length. -/
def Short : Kind → Prop
  | .literal _ name value => Complete.Short name ∧ value.payload.length ≤ maxLiteralLen
  | .indexed _ | .resize _ => True

theorem short_of_parse {input rest : Bytes} {kind : Kind} (h : Kind.parse input = .ok (kind, rest)) :
    Short kind := by
  have hliteral {name : ℕ} {index : Index} {tail : Bytes}
      (h : Kind.parseLiteral name index tail = .ok (kind, rest)) : Short kind := by
    unfold Kind.parseLiteral at h
    obtain ⟨⟨source, tail'⟩, hname, h⟩ := Except.bind_eq_ok_iff.mp h
    obtain ⟨⟨value, tail''⟩, hvalue, h⟩ := Except.bind_eq_ok_iff.mp h
    obtain ⟨rfl, -⟩ := Prod.mk.inj (Except.ok.inj h)
    refine ⟨?_, Encoded.length_of_take hvalue⟩
    rintro encoded rfl
    unfold Name.take at hname
    split at hname
    · obtain ⟨⟨encoded', tail'⟩, htake, h⟩ := Except.bind_eq_ok_iff.mp hname
      obtain ⟨heq, -⟩ := Prod.mk.inj (Except.ok.inj h)
      obtain rfl := Name.literal.inj heq
      exact Encoded.length_of_take htake
    · exact absurd (Prod.mk.inj (Except.ok.inj hname)).1 (by simp)
  unfold Kind.parse at h
  split at h
  · contradiction
  · split_ifs at h
    all_goals obtain ⟨⟨value, tail⟩, -, h⟩ := Except.bind_eq_ok_iff.mp h
    · obtain ⟨rfl, -⟩ := Prod.mk.inj (Except.ok.inj h)
      trivial
    · exact hliteral h
    · obtain ⟨rfl, -⟩ := Prod.mk.inj (Except.ok.inj h)
      trivial
    all_goals exact hliteral h

/-- Whether a string stands for anything. -/
def sound (value : Encoded) : Option Unit :=
  value.contents.map fun _ => ()

namespace Mode

variable {σ ε : Type} (mode : Mode σ ε)

theorem validateValue_tracks (sink : σ) {value : Encoded}
    (hlen : value.payload.length ≤ maxLiteralLen) :
    Tracks (mode.validateValue sink value) (fun _ => ()) (sound value) := by
  rw [sound, Option.map_eq_bind]
  refine (tracks_checked (Encoded.validate_toOption hlen)).follow fun result _ _ _ => ?_
  exact tracks_sink fun _ _ => rfl

theorem literal_tracks (proof : mode.Direct) (sink : σ) {value : Encoded}
    (hlen : value.payload.length ≤ maxLiteralLen) :
    Tracks (mode.literal proof sink value) (fun _ => ()) (sound value) := by
  cases hliteral : mode.literal proof sink value with
  | error failure =>
    cases failure with
    | sink cause => trivial
    | decode cause =>
      exact congrArg (Option.map fun _ => ()) (mode.not_contents_of_literal hlen hliteral)
  | ok result =>
    have hok : mode.literal proof sink value = .ok (result.1, result.2) := hliteral
    obtain ⟨contents, hsome⟩ := Option.isSome_iff_exists.mp (mode.contents_of_literal hok)
    exact congrArg (Option.map fun _ => ()) hsome

theorem plainValue_tracks (context : Named mode.Active) (sink : σ) {value : Encoded}
    (hlen : value.payload.length ≤ maxLiteralLen) :
    Tracks (mode.plainValue context sink value) (fun _ => ()) (sound value) := by
  unfold plainValue
  split
  · exact (tracks_checked (value.decodeSpan_toOption _)).map
  · exact (tracks_checked value.decodedLen_toOption).map
  · exact mode.validateValue_tracks sink hlen
  · exact mode.literal_tracks _ sink hlen

theorem scratchValue_tracks (context : Named mode.Active) (sink : σ) {value : Encoded}
    (hlen : value.payload.length ≤ maxLiteralLen) :
    Tracks (mode.scratchValue context sink value) (fun _ => ()) (sound value) := by
  unfold scratchValue
  split
  · exact (tracks_checked (value.decodeInto_toOption _)).map
  · exact (tracks_checked (value.decodeInto_toOption ⟨0⟩)).map
  · exact mode.validateValue_tracks sink hlen
  · exact mode.literal_tracks _ sink hlen

/-- The decoder behind an outcome, and whether a size update may still follow. -/
def after (result : Decoder × Feed σ) : Decoder × Resize :=
  (result.1, result.2.budget.resize)

theorem readPlain_tracks (decoder : Decoder) (feed : Feed σ) {index : Index}
    (hindex : index ≠ .indexed) (name : Name) {value : Encoded}
    (hlen : value.payload.length ≤ maxLiteralLen) :
    Tracks (mode.readPlain decoder feed index name value) after
      ((name.contents decoder.table).bind fun name =>
        value.contents.map fun value =>
          (insert decoder index ⟨name, value⟩, feed.budget.resize)) := by
  have hinsert (entry : Entry) : insert decoder index entry = decoder := by
    cases index with
    | plain => rfl
    | never => rfl
    | indexed => contradiction
  have hname : Tracks (ε := ε) ((Complete.plainName decoder
      (mode.retention (decoder.context feed.budget index)) name).mapError .decode)
      (fun _ => ()) ((name.contents decoder.table).map fun _ => ()) := by
    refine tracks_checked ?_
    cases hcontents : name.contents decoder.table with
    | none =>
      obtain ⟨error, hplain⟩ := Complete.plainName_of_not_contents hcontents
        (mode.retention (decoder.context feed.budget index))
      rw [hplain]
      rfl
    | some contents =>
      obtain ⟨scratch, hplain, -⟩ := Complete.plainName_of_contents hcontents
        (mode.retention (decoder.context feed.budget index))
      rw [hplain]
      rfl
  refine hname.follow fun name contents _ _ => ?_
  simp only [beginLiteral, bind_assoc, pure_bind]
  refine tracks_sink fun begun _ => ?_
  rw [Option.map_eq_bind]
  refine (mode.plainValue_tracks _ _ hlen).follow fun decoded valueBytes _ _ => ?_
  refine tracks_sink fun next hfinish => ?_
  rw [Function.comp_apply, hinsert]
  exact congrArg (fun resize => some (decoder, resize)) (mode.resize_of_finish hfinish).symm

/-- A literal in scratch storage: only one that the table has no room for gets there. -/
theorem readScratch_tracks {decoder : Decoder} (feed : Feed σ) {context : Named mode.Active}
    (hindex : (mode.facts context.mode).index = .indexed) (scratch : Option Bytes)
    (name : Bytes) {value : Encoded} (hlen : value.payload.length ≤ maxLiteralLen)
    (hunfit : ∀ contents, value.contents = some contents →
      decoder.table.limit < name.length + contents.length + entryOverhead) :
    Tracks (mode.readScratch decoder feed context scratch value) after
      (value.contents.map fun contents =>
        (insert decoder .indexed ⟨name, contents⟩, feed.budget.resize)) := by
  rw [Option.map_eq_bind]
  refine (mode.scratchValue_tracks _ _ hlen).follow fun decoded contents _ hcontents => ?_
  have hsize : ¬(Entry.size ⟨name, contents⟩ ≤ decoder.table.limit) :=
    not_le.mpr (hunfit contents hcontents)
  refine tracks_sink fun next hfinish => ?_
  have hresize := mode.resize_of_finish hfinish
  simp only [Tracks, pure, Except.pure, Function.comp_apply, after, insert, Table.insert,
    dif_neg hsize, hindex, hresize]

theorem finishStaged_tracks (stage : ValueStage) (core : Core) (feed : Feed σ)
    (context : Named mode.Active) :
    Tracks (mode.finishStaged stage core feed context) after
      (some (insert ⟨stage.table, core⟩ .indexed ⟨stage.name, stage.value⟩,
        feed.budget.resize)) := by
  refine tracks_sink fun next hfinish => ?_
  have hresize := mode.resize_of_finish hfinish
  simp only [Tracks, pure, Except.pure, after, insert, stage.commit_eq_insert, hresize]

/-- The value of a literal that is to be indexed, wherever its name is. -/
theorem readValue_tracks {decoder : Decoder} (feed : Feed σ) {context : Named mode.Active}
    (hindex : (mode.facts context.mode).index = .indexed) {limit : Bound} {name : Bytes}
    {path : Path} {scratch : Option Bytes} (hpath : Path.Named decoder limit name path scratch)
    {value : Encoded} (hlen : value.payload.length ≤ maxLiteralLen) :
    Tracks (mode.readValue path feed context scratch value) after
      (value.contents.map fun contents =>
        (insert decoder .indexed ⟨name, contents⟩, feed.budget.resize)) := by
  cases hpath with
  | ready _ _ hunfit =>
    exact mode.readScratch_tracks feed hindex scratch name hlen fun _ _ => by omega
  | staged stage _ htable hname hvalue =>
    subst hname
    have hspill (hunfit : ∀ contents, value.contents = some contents →
        decoder.table.limit < stage.name.length + contents.length + entryOverhead) :
        Tracks (mode.readScratch ⟨stage.discard, decoder.core⟩ feed context
          (mode.spilledName stage context) value) after
          (value.contents.map fun contents =>
            (insert decoder .indexed ⟨stage.name, contents⟩, feed.budget.resize)) := by
      rw [ValueStage.discard, htable]
      exact mode.readScratch_tracks feed hindex _ stage.name hlen hunfit
    cases hcontents : value.contents with
    | none =>
      rw [hcontents] at hspill
      rcases Encoded.store_of_not_contents ValueStage.lawfulSink_write stage trivial hcontents
        with hstore | hstore
      · simp only [readValue, hstore]
        exact rfl
      · simp only [readValue, hstore]
        exact hspill fun _ h => by contradiction
    | some contents =>
      rw [hcontents] at hspill
      cases hwrite : stage.write contents with
      | ok next =>
        have hstore :=
          Encoded.store_of_contents ValueStage.lawfulSink_write trivial hcontents hwrite
        obtain ⟨hnext, hnextName, hnextValue⟩ := ValueStage.of_write_ok hwrite
        rw [hvalue, List.nil_append] at hnextValue
        have hfinish := mode.finishStaged_tracks next decoder.core feed context
        rw [hnext, htable, hnextName, hnextValue] at hfinish
        simp only [readValue, hstore]
        exact hfinish
      | error error =>
        have hstore :=
          Encoded.store_of_contents_refused ValueStage.lawfulSink_write trivial hcontents hwrite
        have hunfit := ValueStage.of_write_error hwrite
        rw [hvalue, List.nil_append, htable] at hunfit
        simp only [readValue, hstore]
        exact hspill fun _ h => Option.some.inj h ▸ hunfit

theorem readIndexed_tracks (decoder : Decoder) (feed : Feed σ) {name : Name}
    (hshort : Complete.Short name) {value : Encoded}
    (hlen : value.payload.length ≤ maxLiteralLen) :
    Tracks (mode.readIndexed decoder feed name value) after
      ((name.contents decoder.table).bind fun name =>
        value.contents.map fun value =>
          (insert decoder .indexed ⟨name, value⟩, feed.budget.resize)) := by
  have hindex := decoder.context_index feed.budget .indexed
  generalize hcontext : decoder.context feed.budget .indexed = context at hindex
  simp only [readIndexed, hcontext]
  generalize hlimit : (⟨mode.retention context, context.index⟩ : LiteralContext) = limited
  cases hname : name.contents decoder.table with
  | none =>
    cases hread : Complete.readName decoder limited name with
    | error cause => exact rfl
    | ok result =>
      have hnone := @Complete.readName_of_not_contents decoder limited name hname
      rw [hread] at hnone
      contradiction
  | some nameBytes =>
    obtain ⟨path, scratch, hread, hpath⟩ := Complete.readName_of_contents limited hshort hname
    rw [hread]
    simp only [Except.mapError, bind_assoc, beginLiteral]
    refine tracks_sink fun begun hbegin => ?_
    have hfacts : mode.facts begun.1 = ⟨nameBytes.length, context.index⟩ :=
      mode.facts_of_begin hbegin
    exact mode.readValue_tracks ⟨feed.budget, begun.2⟩ (by rw [hfacts]; exact hindex) hpath hlen

/-! ## Blocks -/

theorem openField_tracks (decoder : Decoder) (feed : Feed σ) :
    Tracks (openField (ε := ε) decoder feed) (fun feed => feed.budget.resize)
      (Resize.close feed.budget.resize decoder.core.requiredResize) := by
  unfold openField Budget.closeResize
  cases hresize : feed.budget.resize with
  | closed => exact congrArg some hresize.symm
  | leading => cases decoder.core.requiredResize <;> exact rfl

theorem apply_tracks (decoder : Decoder) (feed : Feed σ) {kind : Kind} (hshort : Short kind) :
    Tracks (mode.apply decoder feed kind) after (evolve decoder feed.budget.resize kind) := by
  cases kind with
  | indexed index =>
    simp only [apply, indexed, bind_assoc]
    refine (openField_tracks decoder feed).bind fun opened _ => ?_
    rw [Option.map_eq_bind]
    refine (tracks_decode (Option.map_id' ..)).bind fun field _ => ?_
    refine tracks_sink fun next hfield => ?_
    exact congrArg (fun resize => some (decoder, resize)) (mode.resize_of_field hfield).symm
  | literal index name value =>
    refine (openField_tracks decoder feed).bind fun opened _ => ?_
    cases index with
    | plain => exact mode.readPlain_tracks decoder opened (by decide) name hshort.2
    | never => exact mode.readPlain_tracks decoder opened (by decide) name hshort.2
    | indexed => exact mode.readIndexed_tracks decoder opened hshort.1 hshort.2
  | resize size =>
    have hmeaning : (decoder.resize feed.budget size).toOption.map
        (fun next => (next, feed.budget.resize)) = evolve decoder feed.budget.resize (.resize size) := by
      unfold evolve Decoder.resize Budget.admitResize
      cases feed.budget.resize with
      | closed => simp
      | leading =>
        by_cases hsize : decoder.core.requiredResize.getD decoder.core.maxSizeSetting < size
        · simp [hsize]
        · simp [hsize, not_lt.mp hsize]
    exact (tracks_decode hmeaning).andThen fun _ => rfl

/-- The decoder over any consumer evolves as the block says, unless the consumer fails. -/
theorem block_tracks (decoder : Decoder) (feed : Feed σ) (input : Bytes) :
    Tracks (mode.block decoder feed input) Prod.fst
      (evolveAll decoder feed.budget.resize input) := by
  induction hlen : input.length using Nat.strong_induction_on generalizing decoder feed input with
  | _ len ih =>
    cases input with
    | nil =>
      rw [block, evolveAll]
      exact (tracks_decode (Option.map_id' ..)).andThen fun _ => rfl
    | cons first rest =>
      rw [mode.block_cons, evolveAll_cons]
      refine (tracks_decode (Option.map_id' ..)).bind fun parsed hparse => ?_
      have hparse := Except.mapError_eq_ok_iff.mp hparse
      have hshorter : parsed.2.length < (first :: rest).length := Kind.length_of_parse hparse
      refine (mode.apply_tracks decoder feed (short_of_parse hparse)).bind fun result _ => ?_
      exact ih _ (hlen ▸ hshorter) result.1 result.2 parsed.2 rfl

end Mode

/-! ## The consumer that emits -/

/-- An outcome of the decoder that emits, over the general interface. -/
def lift (outcome : Except Error (Decoder × Flow)) :
    Except (Failure Empty) (Decoder × Feed (List Entry)) :=
  (outcome.mapError .decode).map fun result => (result.1, ⟨result.2.budget, result.2.sink⟩)

theorem readPlain_emit (decoder : Decoder) (flow : Flow) (index : Index) (name : Name)
    (value : Encoded) :
    emit.readPlain decoder ⟨flow.budget, flow.sink⟩ index name value =
      lift (Complete.readPlain decoder flow index name value) := by
  simp only [Mode.readPlain, Complete.readPlain]
  generalize decoder.context flow.budget index = context
  rw [show emit.retention context = context.retainLimit from rfl]
  cases Complete.plainName decoder context.retainLimit name with
  | error cause => rfl
  | ok name =>
    simp only [bind, Except.bind, Except.mapError, Mode.beginLiteral, emit, pure, Except.pure,
      Mode.plainValue, Mode.limit, LiteralContext.begin, NamedContext.limit]
    cases value.decodeSpan (context.retainLimit.after name.len).option with
    | error cause => rfl
    | ok decoded => rfl

theorem readScratch_emit (decoder : Decoder) (flow : Flow) (context : LiteralContext)
    {span name : Option Bytes} {len : ℕ} (hspan : span.isSome = name.isSome) (value : Encoded) :
    emit.readScratch decoder ⟨flow.budget, flow.sink⟩
        ⟨context.retainLimit, ⟨len, context.index⟩, if span.isSome then .retain else .count⟩
        name value =
      lift ((value.decodeInto (context.begin len).limit.option).map fun decoded =>
        decoder.value flow (context.begin len) name decoded) := by
  simp only [Mode.readScratch, Mode.scratchValue, Mode.finishReady, Mode.limit, emit,
    LiteralContext.begin, NamedContext.limit]
  cases value.decodeInto (context.retainLimit.after len).option with
  | error cause => rfl
  | ok decoded =>
    rw [hspan]
    cases name <;> rfl

theorem named_of_readName {decoder : Decoder} {context : LiteralContext} {source : Name}
    {path : Path} {named : NamedContext} {name : Option Bytes}
    (h : Complete.readName decoder context source = .ok (path, named, name)) :
    named = context.begin named.len ∧
      ∀ stage core, path = .staged stage core → name = some stage.name := by
  unfold Complete.readName at h
  cases source with
  | literal encoded =>
    obtain ⟨stored, hstore, h⟩ := Except.bind_eq_ok_iff.mp h
    cases stored with
    | none =>
      obtain ⟨decoded, -, h⟩ := Except.bind_eq_ok_iff.mp h
      simp only [pure, Except.pure, Except.ok.injEq, Prod.mk.injEq] at h
      obtain ⟨rfl, rfl, rfl⟩ := h
      exact ⟨rfl, fun _ _ hpath => by contradiction⟩
    | some stage =>
      obtain ⟨⟨stage', named'⟩, hnamed, h⟩ := Except.bind_eq_ok_iff.mp h
      obtain ⟨last, -, hlast⟩ := Except.bind_eq_ok_iff.mp hnamed
      obtain ⟨rfl, rfl⟩ := Prod.mk.inj (Except.ok.inj hlast)
      simp only [pure, Except.pure, Except.ok.injEq, Prod.mk.injEq] at h
      obtain ⟨rfl, rfl, rfl⟩ := h
      refine ⟨rfl, ?_⟩
      rintro _ _ ⟨rfl⟩
      rfl
  | indexed index =>
    obtain ⟨⟨path', decoded⟩, hindexed, h⟩ := Except.bind_eq_ok_iff.mp h
    simp only [pure, Except.pure, Except.ok.injEq, Prod.mk.injEq] at h
    obtain ⟨rfl, rfl, rfl⟩ := h
    refine ⟨rfl, ?_⟩
    rintro stage core rfl
    obtain ⟨begun, -, h⟩ := Except.bind_eq_ok_iff.mp hindexed
    cases begun with
    | staged stage' core' =>
      simp only [pure, Except.pure, Except.ok.injEq, Prod.mk.injEq, Path.staged.injEq] at h
      obtain ⟨⟨rfl, -⟩, rfl⟩ := h
      rfl
    | ready decoder' =>
      obtain ⟨decoded', -, h⟩ := Except.bind_eq_ok_iff.mp h
      simp [pure, Except.pure] at h

theorem readIndexed_emit (decoder : Decoder) (flow : Flow) (name : Name) (value : Encoded) :
    emit.readIndexed decoder ⟨flow.budget, flow.sink⟩ name value =
      lift (Complete.readIndexed decoder flow name value) := by
  simp only [Mode.readIndexed, Complete.readIndexed]
  generalize decoder.context flow.budget .indexed = context
  rw [show (⟨emit.retention context, context.index⟩ : LiteralContext) = context from rfl]
  cases hread : Complete.readName decoder context name with
  | error cause => rfl
  | ok result =>
    obtain ⟨path, named, span⟩ := result
    obtain ⟨hnamed, hstaged⟩ := named_of_readName hread
    rw [hnamed]
    cases path with
    | ready ready =>
      exact (readScratch_emit ready flow context rfl value)
    | staged stage core =>
      obtain rfl := hstaged stage core rfl
      simp only [bind, Except.bind, Except.mapError, Mode.beginLiteral, Mode.readValue]
      cases value.store ValueStage.write stage with
      | error cause => rfl
      | ok stored =>
        cases stored with
        | some written => rfl
        | none =>
          exact readScratch_emit ⟨stage.discard, core⟩ flow context
            (rfl : (some stage.name).isSome = (some stage.name).isSome) value

theorem openField_emit (decoder : Decoder) (flow : Flow) :
    (Mode.openField decoder ⟨flow.budget, flow.sink⟩ :
        Except (Failure Empty) (Feed (List Entry))) =
      ((decoder.core.field flow).mapError .decode).map fun flow => ⟨flow.budget, flow.sink⟩ := by
  unfold Mode.openField Core.field
  cases flow.budget.closeResize decoder.core.requiredResize <;> rfl

theorem apply_emit (decoder : Decoder) (flow : Flow) (kind : Kind) :
    emit.apply decoder ⟨flow.budget, flow.sink⟩ kind = lift (Complete.apply decoder flow kind) := by
  cases kind with
  | indexed index =>
    simp only [Mode.apply, Mode.indexed, openField_emit, Complete.apply, Complete.indexed]
    cases decoder.core.field flow with
    | error cause => rfl
    | ok flow => cases lookup decoder.table index <;> rfl
  | literal index name value =>
    simp only [Mode.apply, Mode.readLiteral, openField_emit, Complete.apply, Complete.readLiteral]
    cases decoder.core.field flow with
    | error cause => rfl
    | ok flow =>
      cases index with
      | plain => exact readPlain_emit decoder flow .plain name value
      | never => exact readPlain_emit decoder flow .never name value
      | indexed => exact readIndexed_emit decoder flow name value
  | resize size =>
    simp only [Mode.apply, Complete.apply]
    cases decoder.resize flow.budget size <;> rfl

theorem block_emit (decoder : Decoder) (flow : Flow) (input : Bytes) :
    emit.block decoder ⟨flow.budget, flow.sink⟩ input = lift (Complete.block decoder flow input) := by
  induction hlen : input.length using Nat.strong_induction_on generalizing decoder flow input with
  | _ len ih =>
    cases input with
    | nil =>
      rw [Mode.block, Complete.block, Complete.run]
      dsimp only
      cases decoder.finish <;> rfl
    | cons first rest =>
      rw [Mode.block_cons, Complete.block, Complete.run_cons]
      cases hparse : Kind.parse (first :: rest) with
      | error cause => cases cause <;> rfl
      | ok parsed =>
        have hshorter : parsed.2.length < (first :: rest).length := Kind.length_of_parse hparse
        simp only [Except.mapError, bind, Except.bind, apply_emit]
        cases Complete.apply decoder flow parsed.1 with
        | error cause => rfl
        | ok result => exact ih _ (hlen ▸ hshorter) result.1 result.2 parsed.2 rfl

end Modes

namespace Decoder

open Modes

theorem decodeLimit_eq_emit (self : Decoder) (input : Bytes) :
    self.decodeTo emit input [] = (self.decodeLimit input).mapError .decode := by
  have hblock := block_emit self ⟨self.budget, []⟩ input
  simp only [decodeTo, decodeLimit, hblock, lift]
  cases Complete.block self ⟨self.budget, []⟩ input <;> rfl

/-- A block that can be discarded evolves the decoder into what the discarding leaves. -/
theorem evolveAll_of_discard {self last : Decoder} {input : Bytes}
    (h : self.discard input = .ok last) : evolveAll self .leading input = some last := by
  have htracks := Modes.discard.block_tracks self ⟨Budget.new none, ()⟩ input
  unfold discard at h
  split at h
  next decoder _ hblock =>
    rw [hblock] at htracks
    obtain rfl := Except.ok.inj h
    exact htracks
  next => contradiction
  next => contradiction

/-- Any consumer of a block that can be discarded either fails itself or leaves the decoder that the
discarding leaves. -/
theorem decodeTo_of_discard {σ ε : Type} (mode : Mode σ ε) {self last : Decoder} {input : Bytes}
    (h : self.discard input = .ok last) (max : Option ℕ) (sink : σ) :
    (∃ admission sink', (self.setMaxList max).decodeTo mode input sink =
      .ok (last.setMaxList max, admission, sink')) ∨
    ∃ cause, (self.setMaxList max).decodeTo mode input sink = .error (.sink cause) := by
  have hevolve := evolveAll_of_discard h
  have htracks := mode.block_tracks (self.setMaxList max) ⟨(self.setMaxList max).budget, sink⟩ input
  rw [show (self.setMaxList max).budget.resize = .leading from rfl, evolveAll_setMaxList,
    hevolve] at htracks
  unfold decodeTo
  cases hblock : mode.block (self.setMaxList max) ⟨(self.setMaxList max).budget, sink⟩ input with
  | ok result =>
    rw [hblock] at htracks
    have hlast : result.1 = last.setMaxList max := (Option.some.inj htracks).symm
    exact Or.inl ⟨result.2.budget.admission, result.2.sink, by rw [← hlast]; rfl⟩
  | error failure =>
    rw [hblock] at htracks
    cases failure with
    | sink cause => exact Or.inr ⟨cause, rfl⟩
    | decode cause => contradiction

end Decoder

namespace Modes

open Metadata Compress

/-! ## A sink with bounded storage -/

section Storage

variable {σ ε : Type} {write : σ → Bytes → Except ε σ}

/-- A string that is written to a sink as its cursor decodes it. -/
def stringInto (write : σ → Bytes → Except ε σ) (sink : σ) (cursor : Cursor) (input : Bytes) :
    Except (Failure ε) (Cursor × σ) :=
  match cursor.feedInto write input sink with
  | .ok (next, _, sink) => .ok (next, sink)
  | .error .invalid => .error (.decode .encoding)
  | .error (.sink cause) => .error (.sink cause)

theorem run_of_stringInto (hlaw : LawfulSink write fun _ => True) {sink last : σ}
    {cursor next : Cursor} {input : Bytes}
    (h : stringInto write sink cursor input = .ok (next, last)) :
    ∃ output, cursor.run input = some (next, output) := by
  unfold stringInto at h
  cases hrun : cursor.run input with
  | none =>
    have hnone : ∃ cause, cursor.feedInto write input sink = .error cause :=
      Cursor.feedInto_of_not_run hlaw trivial hrun
    obtain ⟨cause, hfed⟩ := hnone
    rw [hfed] at h
    cases cause <;> contradiction
  | some result =>
    obtain ⟨next', output⟩ := result
    cases hwrite : write sink output with
    | error error =>
      obtain ⟨cause, hfed⟩ := Cursor.feedInto_of_run_refused hlaw trivial hrun hwrite
      rw [hfed] at h
      contradiction
    | ok written =>
      obtain ⟨progress, hfed⟩ := Cursor.feedInto_of_run hlaw trivial hrun hwrite
      rw [hfed] at h
      obtain ⟨rfl, -⟩ := Prod.mk.inj (Except.ok.inj h)
      exact ⟨output, rfl⟩

theorem not_run_of_stringInto (hlaw : LawfulSink write fun _ => True) {sink : σ} {cursor : Cursor}
    {input : Bytes} {cause : Error}
    (h : stringInto write sink cursor input = .error (.decode cause)) :
    cursor.run input = none := by
  unfold stringInto at h
  by_contra hrun
  obtain ⟨⟨next, output⟩, hrun⟩ := Option.ne_none_iff_exists'.mp hrun
  cases hwrite : write sink output with
  | error error =>
    obtain ⟨cause', hfed⟩ := Cursor.feedInto_of_run_refused hlaw trivial hrun hwrite
    simp [hfed] at h
  | ok written =>
    obtain ⟨progress, hfed⟩ := Cursor.feedInto_of_run hlaw trivial hrun hwrite
    rw [hfed] at h
    contradiction

end Storage

/-- Bytes taken from the room that is left. -/
def takeRoom (room : ℕ) (bytes : Bytes) : Except Unit ℕ :=
  if bytes.length ≤ room then .ok (room - bytes.length) else .error ()

theorem lawfulSink_takeRoom : LawfulSink takeRoom fun _ => True where
  nil := fun _ _ => by simp [takeRoom]
  valid_of_ok := fun _ => trivial
  append_ok := by
    intro room left first second h
    unfold takeRoom at h
    split at h
    next hfirst =>
      obtain rfl := Except.ok.inj h
      simp only [takeRoom, List.length_append]
      grind
    next => contradiction
  append_error := by
    intro room error first second h
    unfold takeRoom at h
    split at h
    next => contradiction
    next hfirst =>
      refine ⟨(), if_neg ?_⟩
      rw [List.length_append]
      omega

/-- A sink that stores every field, in the room that is left. -/
def lease : Sink ℕ Unit where
  Rule := Unit
  Completion := Unit
  string := stringInto takeRoom
  rollback room := room
  validate room _ := .ok room
  begin room name _ := .ok (if name.isSome then .direct () else .skip, room)
  indexed room name := .ok (if name.isSome then .buffered () else .skip, room)
  field room _ value _ name := takeRoom room (name ++ value)
  direct room _ := .ok room
  run_of_string := run_of_stringInto lawfulSink_takeRoom
  not_run_of_string _ := not_run_of_stringInto lawfulSink_takeRoom

end Modes

namespace Decoder

open Metadata Compress Modes

/-- What a block does to the table and to a pending size update does not depend on who reads its
fields: a block that can be discarded is accepted when it is emitted, within whatever header list
size, and when it is stored, unless the sink itself fails. -/
theorem discard_evolves {self last : Decoder} {input : Bytes} (h : self.discard input = .ok last)
    (max : Option ℕ) :
    (∃ admission fields, (self.setMaxList max).decodeLimit input =
      .ok (last.setMaxList max, admission, fields)) ∧
    ∀ {σ ε : Type} (sink : Sink σ ε) (initial : σ),
      (∃ admission state, (self.setMaxList max).decodeTo (store sink) input initial =
        .ok (last.setMaxList max, admission, state)) ∨
      ∃ cause, (self.setMaxList max).decodeTo (store sink) input initial = .error (.sink cause) := by
  refine ⟨?_, fun sink initial => decodeTo_of_discard (store sink) h max initial⟩
  rcases decodeTo_of_discard emit h max [] with ⟨admission, fields, hemit⟩ | ⟨cause, -⟩
  · rw [decodeLimit_eq_emit] at hemit
    exact ⟨admission, fields, Except.mapError_eq_ok_iff.mp hemit⟩
  · exact cause.elim

/-- A decoder with an empty table of at most 64 bytes. -/
def fresh : Decoder :=
  ⟨Table.new 64 64, ⟨64, none, none⟩⟩

/-- A literal `a: b` that is to be indexed, behind a size update. -/
def sample : Bytes :=
  [0x3f, 0x03, 0x40, 0x01, 0x61, 0x01, 0x62]

/-- The sample leaves a table of 34 bytes that its field fills. -/
theorem discard_evolves_sample :
    fresh.discard sample = .ok ⟨(fresh.table.setLimit 34).insert ⟨[0x61], [0x62]⟩, fresh.core⟩ ∧
      ∃ admission fields, (fresh.setMaxList (some 8)).decodeLimit sample =
        .ok (Decoder.setMaxList ⟨(fresh.table.setLimit 34).insert ⟨[0x61], [0x62]⟩, fresh.core⟩
          (some 8), admission, fields) := by
  have hdiscard : fresh.discard sample =
      .ok ⟨(fresh.table.setLimit 34).insert ⟨[0x61], [0x62]⟩, fresh.core⟩ := by decide +kernel
  exact ⟨hdiscard, (discard_evolves hdiscard (some 8)).1⟩

/-- A sink without room for the sample fails, though the sample can be discarded. -/
theorem store_without_room :
    ¬∀ (self last : Decoder) (input : Bytes), self.discard input = .ok last →
      ∀ (sink : Sink ℕ Unit) (initial : ℕ), ∃ admission state,
        self.decodeTo (store sink) input initial = .ok (last, admission, state) := by
  intro hall
  have hdiscard : fresh.discard sample =
      .ok ⟨(fresh.table.setLimit 34).insert ⟨[0x61], [0x62]⟩, fresh.core⟩ := by decide +kernel
  obtain ⟨admission, state, hstore⟩ := hall _ _ _ hdiscard lease 0
  have hfailed : (fresh.decodeTo (store lease) sample 0).toOption = none := by decide +kernel
  rw [hstore] at hfailed
  contradiction

end Decoder

end Sark.Hpack
