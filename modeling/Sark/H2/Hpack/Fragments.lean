import Sark.H2.Hpack.Meaning

/-!
# Fragmented decoding is one-shot decoding

Every phase of the resumable decoder stands for what is still to come of the block (`Means`), and
every round of its loop keeps that: it takes some of the input and reaches a phase that stands for
what follows, or it fails and the block is not accepted by the one-shot decoder either.

* `Means.advance`: one round.
* `Means.decode`: one fragment.
* `Block.decode_fragments`: a block cut in any way is decoded as the whole block is.
-/

namespace Sark.Hpack

open Metadata Compress

/-! ## Numbers -/

theorem read_append_of_feedNumber (number : Continuation) (input more : Bytes) :
    match feedNumber number input with
    | .error _ => (number.read (input ++ more)).toOption = none
    | .ok (.pending next) => number.read (input ++ more) = next.read more
    | .ok (.complete value rest) => number.read (input ++ more) = .ok (value, rest ++ more) := by
  induction input generalizing number with
  | nil => rfl
  | cons byte input ih =>
    rw [feedNumber, List.cons_append, Continuation.read]
    cases number.tryPush byte with
    | error cause => rfl
    | ok push =>
      cases push with
      | done value => rfl
      | more next => exact ih next

/-! ## Strings -/

/-- A cursor that has decoded `seen` of a literal of admissible length. -/
structure Reading (cursor : Cursor) (seen : Bytes) : Prop where
  len : cursor.decodedLen = seen.length
  short : cursor.decodedLen + 2 * cursor.remaining ≤ 2 * maxLiteralLen

theorem reading_new {len : ℕ} (hlen : len ≤ maxLiteralLen) (encoding : Encoding) :
    Reading (Cursor.new len encoding) [] :=
  ⟨rfl, by simpa [Cursor.new] using hlen⟩

theorem Reading.of_run {cursor next : Cursor} {seen payload output : Bytes}
    (h : Reading cursor seen) (hrun : cursor.run payload = some (next, output)) :
    Reading next (seen ++ output) := by
  have hlength := Cursor.length_of_run hrun
  have hlen := h.len
  have hshort := h.short
  obtain ⟨state, -, -, rfl⟩ := Cursor.run_eq_some_iff.mp hrun
  refine ⟨by simp [hlen], ?_⟩
  dsimp only
  omega

theorem textFrom_of_remaining {cursor : Cursor} {seen : Bytes} (h : Reading cursor seen)
    (hremaining : cursor.remaining = 0) (next : Bytes → Meaning) (input : Bytes) :
    textFrom cursor seen next input = cursor.finish.bind fun _ => next seen input := by
  have hrun : cursor.run input = some (cursor, []) := by
    have hshort := h.short
    refine Cursor.run_eq_some_iff.mpr ⟨cursor.state, ?_, ?_, ?_⟩
    · rw [hremaining, List.take_zero]
      cases cursor.state with
      | plain => rfl
      | huffman decoder => rfl
    · simp only [maxLiteralLen, List.length_nil] at hshort ⊢
      omega
    · rw [hremaining, Nat.zero_sub, List.length_nil, Nat.add_zero, ← hremaining]
  rw [textFrom, Cursor.read, hremaining, if_neg (Nat.not_lt_zero _), hrun]
  cases hfinish : cursor.finish <;> simp [hfinish]

theorem textFrom_append {cursor next : Cursor} {payload output : Bytes} (seen : Bytes)
    (hlength : payload.length ≤ cursor.remaining)
    (hrun : cursor.run payload = some (next, output)) (follow : Bytes → Meaning) (more : Bytes) :
    textFrom cursor seen follow (payload ++ more) =
      textFrom next (seen ++ output) follow more := by
  rw [textFrom, textFrom, Cursor.read_append hlength hrun]
  cases next.read more <;> simp

theorem textFrom_append_of_not_run {cursor : Cursor} {payload : Bytes} (seen : Bytes)
    (hlength : payload.length ≤ cursor.remaining) (hrun : cursor.run payload = none)
    (follow : Bytes → Meaning) (more : Bytes) :
    textFrom cursor seen follow (payload ++ more) = none := by
  rw [textFrom, Cursor.read_append_of_not_run hlength hrun]
  rfl

theorem textFrom_nil (string : StringState) (seen : Bytes) (next : Bytes → Meaning) :
    textFrom string.cursor seen next [] = none := by
  have hpending := string.pending
  rw [textFrom, Cursor.read, if_pos (by simpa using hpending)]
  rfl

namespace Scratch

/-- The least length of a string of which `seen` was decoded. -/
def least (cursor : Cursor) (seen : Bytes) : ℕ :=
  match cursor.state with
  | .plain => seen.length + cursor.remaining
  | .huffman _ => seen.length

/-- What a scratch buffer tells about a string that is being decoded. -/
def Follows (limit : Bound) (scratch : Option Bytes) (cursor : Cursor) (seen : Bytes) : Prop :=
  match scratch with
  | some written => written = seen ∧ Valid limit.option (some seen)
  | none => limit.value < least cursor seen

theorem least_of_run {cursor next : Cursor} {payload output seen : Bytes}
    (hrun : cursor.run payload = some (next, output)) :
    least cursor seen ≤ least next (seen ++ output) := by
  obtain ⟨state, hstate, -, rfl⟩ := Cursor.run_eq_some_iff.mp hrun
  unfold least
  cases hcursor : cursor.state with
  | plain =>
    rw [hcursor] at hstate
    obtain ⟨rfl, rfl⟩ := Prod.mk.inj (Option.some.inj hstate)
    simp only [List.length_append, List.length_take]
    omega
  | huffman decoder =>
    rw [hcursor] at hstate
    obtain ⟨result, -, heq⟩ := Option.map_eq_some_iff.mp hstate
    obtain ⟨rfl, -⟩ := Prod.mk.inj heq
    simp

theorem Follows.holds {limit : Bound} {scratch : Option Bytes} {cursor : Cursor} {seen : Bytes}
    (h : Follows limit scratch cursor seen) (hremaining : cursor.remaining = 0) :
    Holds limit scratch seen := by
  cases scratch with
  | some written => exact h.1
  | none =>
    have hleast : least cursor seen = seen.length := by
      unfold least
      split <;> simp [hremaining]
    rw [Follows, hleast] at h
    exact h

theorem follows_start (limit : Bound) (len : ℕ) (encoding : Encoding) :
    Follows limit (start limit len encoding) (Cursor.new len encoding) [] := by
  have hempty : Valid limit.option (some []) := by
    rintro written ⟨rfl⟩
    cases limit.option <;> simp
  cases encoding with
  | huffman => exact ⟨rfl, hempty⟩
  | plain =>
    unfold start Bound.admitLen
    by_cases hlen : len ≤ limit.value
    · rw [if_pos hlen]
      exact ⟨rfl, hempty⟩
    · rw [if_neg hlen]
      simpa [Follows, least, Cursor.new] using hlen

theorem feed_of_run {limit : Bound} {scratch : Option Bytes} {cursor next : Cursor}
    {seen payload output : Bytes} (h : Follows limit scratch cursor seen)
    (hrun : cursor.run payload = some (next, output)) :
    ∃ scratch', feed limit cursor scratch payload = .ok (next, scratch') ∧
      Follows limit scratch' next (seen ++ output) ∧ (scratch'.isSome → scratch.isSome) := by
  cases scratch with
  | none =>
    have hcount := cursor.feedCount_eq_map_run payload
    rw [hrun] at hcount
    obtain ⟨⟨next', progress⟩, hfed, rfl⟩ := Option.map_eq_some_iff.mp hcount
    exact ⟨none, by simp only [feed, hfed], h.trans_le (least_of_run hrun), id⟩
  | some written =>
    obtain ⟨rfl, hvalid⟩ := h
    obtain ⟨last, hwrite⟩ := write_ok limit.option (some written) output
    obtain ⟨progress, hfed⟩ := Cursor.feedInto_of_run (lawfulSink_write limit.option) hvalid hrun
      hwrite
    refine ⟨last, by simp only [feed, hfed], ?_, fun _ => rfl⟩
    have hlast := (lawfulSink_write limit.option).valid_of_ok hwrite
    simp only [write] at hwrite
    split at hwrite
    next hlarge =>
      obtain rfl := Except.ok.inj hwrite
      -- What was written is more than the limit, and it can only become longer.
      have hlimit : limit.value < (written ++ output).length := by
        cases hoption : limit.option with
        | none => simp [hoption] at hlarge
        | some bound =>
          have : limit = ⟨bound⟩ := by rw [← limit.new_option, hoption]; rfl
          subst this
          simpa [hoption] using hlarge
      refine hlimit.trans_le ?_
      unfold least
      split <;> omega
    next =>
      obtain rfl := Except.ok.inj hwrite
      exact ⟨rfl, hlast⟩

theorem feed_of_not_run {limit : Bound} {scratch : Option Bytes} {cursor : Cursor}
    {seen payload : Bytes} (h : Follows limit scratch cursor seen)
    (hrun : cursor.run payload = none) :
    ∃ cause, feed limit cursor scratch payload = .error cause := by
  cases scratch with
  | none =>
    have hcount := cursor.feedCount_eq_map_run payload
    rw [hrun, Option.map_none, Option.map_eq_none_iff] at hcount
    exact ⟨.badString, by simp only [feed, hcount]⟩
  | some written =>
    obtain ⟨rfl, hvalid⟩ := h
    obtain ⟨cause, hfed⟩ :=
      Cursor.feedInto_of_not_run (lawfulSink_write limit.option) hvalid hrun
    exact ⟨.encoding, by simp only [feed, hfed]⟩

end Scratch

section Stage

variable {σ : Type*} {write : σ → Bytes → Except Overflow σ} {valid : σ → Prop}

theorem feedStage_of_run (hlaw : LawfulSink write valid) {stage : σ} (hvalid : valid stage)
    {cursor next : Cursor} {payload output : Bytes}
    (hrun : cursor.run payload = some (next, output)) :
    (∃ last, write stage output = .ok last ∧
      feedStage write cursor stage payload = .ok (some (next, last))) ∨
    (∃ error, write stage output = .error error ∧
      feedStage write cursor stage payload = .ok none) := by
  cases hwrite : write stage output with
  | ok last =>
    obtain ⟨progress, hfed⟩ := Cursor.feedInto_of_run hlaw hvalid hrun hwrite
    exact Or.inl ⟨last, rfl, by simp only [feedStage, hfed]⟩
  | error error =>
    obtain ⟨cause, hfed⟩ := Cursor.feedInto_of_run_refused hlaw hvalid hrun hwrite
    exact Or.inr ⟨error, rfl, by simp only [feedStage, hfed]⟩

theorem feedStage_of_not_run (hlaw : LawfulSink write valid) {stage : σ} (hvalid : valid stage)
    {cursor : Cursor} {payload : Bytes} (hrun : cursor.run payload = none) :
    feedStage write cursor stage payload = .error .encoding ∨
      feedStage write cursor stage payload = .ok none := by
  obtain ⟨cause, hfed⟩ := Cursor.feedInto_of_not_run hlaw hvalid hrun
  cases cause with
  | invalid => exact Or.inl (by simp only [feedStage, hfed])
  | sink cause => exact Or.inr (by simp only [feedStage, hfed])

end Stage

/-! ## What a phase stands for -/

/-- A field that the budget could admit is within a limit. -/
def Roomy (flow : Flow) (limit : Bound) : Prop :=
  flow.budget.retention.value ≤ limit.value

/-- A literal of at least this length does not enter the table. -/
def Unfit (decoder : Decoder) (index : Index) (len : ℕ) : Prop :=
  index = .indexed → decoder.table.limit < len + entryOverhead

theorem Unfit.mono {decoder : Decoder} {index : Index} {len len' : ℕ}
    (h : Unfit decoder index len) (hle : len ≤ len') : Unfit decoder index len' := fun hindex => by
  have := h hindex
  omega

/-- What a context knows about the name of a literal. -/
structure NamedContext.Sound (context : NamedContext) (flow : Flow) (name : Option Bytes)
    (bytes : Bytes) : Prop where
  roomy : Roomy flow context.retainLimit
  len : context.len = bytes.length
  holds : Scratch.Holds context.retainLimit name bytes

/-- A phase stands for the rest of the block. -/
inductive Means : Phase → Flow → Meaning → Prop
  | representation (decoder : Decoder) (flow : Flow) :
      Means (.representation decoder) flow (whole decoder flow)
  | integer (decoder : Decoder) (flow : Flow) (number : Continuation) (target : Integer) :
      Means (.integer decoder number target) flow (numberOf decoder flow number target)
  | readyNamePrefix {decoder : Decoder} {flow : Flow} {context : LiteralContext}
      (hroomy : Roomy flow context.retainLimit) (hunfit : Unfit decoder context.index 0) :
      Means (.readyNamePrefix decoder context) flow (nameOf decoder flow context.index)
  | stagedNamePrefix {stage : NameStage} {core : Core} {flow : Flow} {context : LiteralContext}
      (hroomy : Roomy flow context.retainLimit) (hindex : context.index = .indexed)
      (hname : stage.name = []) :
      Means (.stagedNamePrefix stage core context) flow (nameOf ⟨stage.table, core⟩ flow .indexed)
  | readyValuePrefix {decoder : Decoder} {flow : Flow} {context : NamedContext}
      {name : Option Bytes} {bytes : Bytes} (hsound : context.Sound flow name bytes)
      (hunfit : Unfit decoder context.index bytes.length) :
      Means (.readyValuePrefix decoder context name) flow
        (valueOf decoder flow context.index bytes)
  | stagedValuePrefix {stage : ValueStage} {core : Core} {flow : Flow} {context : NamedContext}
      (hsound : context.Sound flow (some stage.name) stage.name)
      (hindex : context.index = .indexed) (hvalue : stage.value = []) :
      Means (.stagedValuePrefix stage core context) flow
        (valueOf ⟨stage.table, core⟩ flow .indexed stage.name)
  | readyNameLength {decoder : Decoder} {flow : Flow} {context : LiteralContext}
      (hroomy : Roomy flow context.retainLimit) (hunfit : Unfit decoder context.index 0)
      (length : LengthState) :
      Means (.readyNameLength decoder context length) flow
        (textOfNumber length.number length.encoding (valueOf decoder flow context.index))
  | stagedNameLength {stage : NameStage} {core : Core} {flow : Flow} {context : LiteralContext}
      (hroomy : Roomy flow context.retainLimit) (hindex : context.index = .indexed)
      (hname : stage.name = []) (length : LengthState) :
      Means (.stagedNameLength stage core context length) flow
        (textOfNumber length.number length.encoding (valueOf ⟨stage.table, core⟩ flow .indexed))
  | readyValueLength {decoder : Decoder} {flow : Flow} {context : NamedContext}
      {name : Option Bytes} {bytes : Bytes} (hsound : context.Sound flow name bytes)
      (hunfit : Unfit decoder context.index bytes.length) (length : LengthState) :
      Means (.readyValueLength decoder context name length) flow
        (textOfNumber length.number length.encoding (fieldOf decoder flow context.index bytes))
  | stagedValueLength {stage : ValueStage} {core : Core} {flow : Flow} {context : NamedContext}
      (hsound : context.Sound flow (some stage.name) stage.name)
      (hindex : context.index = .indexed) (hvalue : stage.value = []) (length : LengthState) :
      Means (.stagedValueLength stage core context length) flow
        (textOfNumber length.number length.encoding
          (fieldOf ⟨stage.table, core⟩ flow .indexed stage.name))
  | readyNameString {decoder : Decoder} {flow : Flow} {context : LiteralContext}
      {string : StringState} {scratch : Option Bytes} {seen : Bytes}
      (hroomy : Roomy flow context.retainLimit) (hreading : Reading string.cursor seen)
      (hscratch : Scratch.Follows context.retainLimit scratch string.cursor seen)
      (hunfit : Unfit decoder context.index seen.length) :
      Means (.readyNameString decoder context string scratch) flow
        (textFrom string.cursor seen (valueOf decoder flow context.index))
  | stagedNameString {stage : NameStage} {core : Core} {flow : Flow} {context : LiteralContext}
      {string : StringState} (hroomy : Roomy flow context.retainLimit)
      (hindex : context.index = .indexed) (hreading : Reading string.cursor stage.name) :
      Means (.stagedNameString stage core context string) flow
        (textFrom string.cursor stage.name (valueOf ⟨stage.table, core⟩ flow .indexed))
  | readyValueString {decoder : Decoder} {flow : Flow} {context : NamedContext}
      {name : Option Bytes} {bytes : Bytes} {string : StringState} {scratch : Option Bytes}
      {seen : Bytes} (hroomy : Roomy flow context.retainLimit) (hlen : context.len = bytes.length)
      (hname : scratch.isSome → Scratch.Holds context.retainLimit name bytes)
      (hreading : Reading string.cursor seen)
      (hscratch : Scratch.Follows context.limit scratch string.cursor seen)
      (hunfit : Unfit decoder context.index (bytes.length + seen.length)) :
      Means (.readyValueString decoder context name string scratch) flow
        (textFrom string.cursor seen (fieldOf decoder flow context.index bytes))
  | stagedValueString {stage : ValueStage} {core : Core} {flow : Flow} {context : NamedContext}
      {string : StringState} (hsound : context.Sound flow (some stage.name) stage.name)
      (hindex : context.index = .indexed) (hreading : Reading string.cursor stage.value) :
      Means (.stagedValueString stage core context string) flow
        (textFrom string.cursor stage.value (fieldOf ⟨stage.table, core⟩ flow .indexed stage.name))

/-- The outcome of a step is a phase that stands for a meaning, or an error where there is none. -/
def Agrees (outcome : Except Error (Phase × Flow)) (meaning : Meaning) : Prop :=
  match outcome with
  | .error _ => ∀ input, meaning input = none
  | .ok (phase, flow) => Means phase flow meaning

theorem Agrees.congr {o : Except Error (Phase × Flow)} {meaning meaning' : Meaning}
    (h : Agrees o meaning) (heq : ∀ input, meaning' input = meaning input) :
    Agrees o meaning' := by
  rwa [funext heq]

/-! ## Ends of strings -/

theorem Cursor.finish_eq {cursor : Cursor} {len : ℕ} (h : cursor.finish = some len) :
    len = cursor.decodedLen := by
  unfold Cursor.finish at h
  split at h
  · contradiction
  · split at h
    · split at h
      · exact (Option.some.inj h).symm
      · contradiction
    · exact (Option.some.inj h).symm

theorem readyValue_agrees {decoder : Decoder} {flow : Flow} {context : NamedContext}
    {name : Option Bytes} {bytes seen : Bytes} {cursor : Cursor} {scratch : Option Bytes}
    (hroomy : Roomy flow context.retainLimit) (hlen : context.len = bytes.length)
    (hname : scratch.isSome → Scratch.Holds context.retainLimit name bytes)
    (hreading : Reading cursor seen)
    (hscratch : Scratch.Follows context.limit scratch cursor seen)
    (hunfit : Unfit decoder context.index (bytes.length + seen.length)) :
    Agrees (Phase.readyValue decoder flow context name cursor scratch)
      (textFrom cursor seen (fieldOf decoder flow context.index bytes)) := by
  unfold Phase.readyValue
  split
  next hpending => exact Means.readyValueString hroomy hlen hname hreading hscratch hunfit
  next hdone =>
    have hremaining : cursor.remaining = 0 := by omega
    have htext := textFrom_of_remaining hreading hremaining
      (fieldOf decoder flow context.index bytes)
    cases hfinish : cursor.finish with
    | none => exact fun input => by simp [htext, hfinish]
    | some len =>
      have hdecoded : len = seen.length := (Cursor.finish_eq hfinish).trans hreading.len
      have hliteral := @Decoder.value_eq_literal decoder flow context name ⟨len, scratch⟩ bytes seen
        hroomy hlen hname hdecoded (hscratch.holds hremaining) hunfit
      dsimp only
      rw [hliteral]
      exact (Agrees.congr (o := .ok (.representation _, _)) (Means.representation _ _)
        fun input => by simp [htext, hfinish, fieldOf])

theorem readyName_agrees {decoder : Decoder} {flow : Flow} {context : LiteralContext}
    {seen : Bytes} {cursor : Cursor} {scratch : Option Bytes}
    (hroomy : Roomy flow context.retainLimit) (hreading : Reading cursor seen)
    (hscratch : Scratch.Follows context.retainLimit scratch cursor seen)
    (hunfit : Unfit decoder context.index seen.length) :
    Agrees ((Phase.readyName decoder context cursor scratch).map fun phase => (phase, flow))
      (textFrom cursor seen (valueOf decoder flow context.index)) := by
  unfold Phase.readyName
  split
  next hpending => exact Means.readyNameString hroomy hreading hscratch hunfit
  next hdone =>
    have hremaining : cursor.remaining = 0 := by omega
    have htext := textFrom_of_remaining hreading hremaining (valueOf decoder flow context.index)
    cases hfinish : cursor.finish with
    | none => exact fun input => by simp [htext, hfinish]
    | some len =>
      have hlen : len = seen.length := (Cursor.finish_eq hfinish).trans hreading.len
      have hsound : (context.begin len).Sound flow scratch seen :=
        ⟨hroomy, hlen, hscratch.holds hremaining⟩
      exact (Agrees.congr (o := .ok (.readyValuePrefix _ _ _, flow))
        (Means.readyValuePrefix hsound hunfit) fun input => by simp [htext, hfinish]; rfl)

theorem stagedValue_agrees {stage : ValueStage} {core : Core} {flow : Flow}
    {context : NamedContext} {cursor : Cursor}
    (hsound : context.Sound flow (some stage.name) stage.name) (hindex : context.index = .indexed)
    (hreading : Reading cursor stage.value) :
    Agrees (Phase.stagedValue stage core flow context cursor)
      (textFrom cursor stage.value (fieldOf ⟨stage.table, core⟩ flow .indexed stage.name)) := by
  unfold Phase.stagedValue
  split
  next hpending => exact Means.stagedValueString hsound hindex hreading
  next hdone =>
    have hremaining : cursor.remaining = 0 := by omega
    have htext := textFrom_of_remaining hreading hremaining
      (fieldOf ⟨stage.table, core⟩ flow .indexed stage.name)
    cases hfinish : cursor.finish with
    | none => exact fun input => by simp [htext, hfinish]
    | some len =>
      dsimp only
      rw [valueStaged_eq_literal hsound.len]
      exact (Agrees.congr (o := .ok (.representation _, _)) (Means.representation _ _)
        fun input => by simp [htext, hfinish, fieldOf])

theorem stagedName_agrees {stage : NameStage} {core : Core} {flow : Flow}
    {context : LiteralContext} {cursor : Cursor} (hroomy : Roomy flow context.retainLimit)
    (hindex : context.index = .indexed) (hreading : Reading cursor stage.name) :
    Agrees ((Phase.stagedName stage core context cursor).map fun phase => (phase, flow))
      (textFrom cursor stage.name (valueOf ⟨stage.table, core⟩ flow .indexed)) := by
  unfold Phase.stagedName
  split
  next hpending => exact Means.stagedNameString hroomy hindex hreading
  next hdone =>
    have hremaining : cursor.remaining = 0 := by omega
    have htext := textFrom_of_remaining hreading hremaining
      (valueOf ⟨stage.table, core⟩ flow .indexed)
    cases hfinish : cursor.finish with
    | none => exact fun input => by simp [htext, hfinish]
    | some len =>
      have hmask : stage.name.length ≤ nameLenMask := by
        have hshort := hreading.short
        have hlen := hreading.len
        simp only [maxLiteralLen, nameLenMask] at *
        omega
      obtain ⟨next, hnamed, htable, hname, hvalue⟩ := nameStaged_ok context hmask
      have hsound : (context.begin stage.name.length).Sound flow (some next.name) next.name :=
        ⟨hroomy, by rw [hname]; rfl, rfl⟩
      have hmeans := @Means.stagedValuePrefix next core flow _ hsound hindex hvalue
      rw [htable, hname] at hmeans
      simp only [hnamed]
      exact (Agrees.congr (o := .ok (.stagedValuePrefix _ _ _, flow)) hmeans
        fun input => by simp [htext, hfinish])

/-! ## Lengths of strings -/

theorem nameLength_agrees {decoder : Decoder} {flow : Flow} {context : LiteralContext}
    (hroomy : Roomy flow context.retainLimit) (hunfit : Unfit decoder context.index 0)
    (len : ℕ) (encoding : Encoding) :
    Agrees ((decoder.nameLength context len encoding).map fun phase => (phase, flow))
      (textOfLength len encoding (valueOf decoder flow context.index)) := by
  unfold Decoder.nameLength textOfLength
  split
  · exact fun input => rfl
  next hshort =>
    have hready := readyName_agrees hroomy (reading_new (not_lt.mp hshort) encoding)
      (Scratch.follows_start context.retainLimit len encoding) hunfit
    -- An empty string is complete at once.
    unfold Phase.readyName at hready
    dsimp only
    by_cases hlen : 0 < len
    · rw [dif_pos (show 0 < (Cursor.new len encoding).remaining from hlen)] at hready
      rw [dif_pos hlen]
      exact hready
    · obtain rfl : len = 0 := by omega
      cases encoding <;> exact hready

theorem valueLength_agrees {decoder : Decoder} {flow : Flow} {context : NamedContext}
    {name : Option Bytes} {bytes : Bytes} (hsound : context.Sound flow name bytes)
    (hunfit : Unfit decoder context.index bytes.length) (len : ℕ) (encoding : Encoding) :
    Agrees (decoder.valueLength flow context name len encoding)
      (textOfLength len encoding (fieldOf decoder flow context.index bytes)) := by
  unfold Decoder.valueLength textOfLength
  split
  · exact fun input => rfl
  next hshort =>
    have hready := readyValue_agrees hsound.roomy hsound.len (fun _ => hsound.holds)
      (reading_new (not_lt.mp hshort) encoding)
      (Scratch.follows_start context.limit len encoding) hunfit
    unfold Phase.readyValue at hready
    dsimp only
    by_cases hlen : 0 < len
    · rw [dif_pos (show 0 < (Cursor.new len encoding).remaining from hlen)] at hready
      rw [dif_pos hlen]
      exact hready
    · obtain rfl : len = 0 := by omega
      cases encoding <;> exact hready

theorem stagedNameLength_agrees {stage : NameStage} {core : Core} {flow : Flow}
    {context : LiteralContext} (hroomy : Roomy flow context.retainLimit)
    (hindex : context.index = .indexed) (hname : stage.name = []) (len : ℕ) (encoding : Encoding) :
    Agrees ((stagedNameLength stage core context len encoding).map fun phase => (phase, flow))
      (textOfLength len encoding (valueOf ⟨stage.table, core⟩ flow .indexed)) := by
  unfold stagedNameLength textOfLength
  split
  · exact fun input => rfl
  next hshort =>
    have hreading : Reading (Cursor.new len encoding) stage.name := by
      rw [hname]
      exact reading_new (not_lt.mp hshort) encoding
    have hstaged := @stagedName_agrees stage core flow context _ hroomy hindex hreading
    rw [hname] at hstaged
    unfold Phase.stagedName at hstaged
    by_cases hlen : 0 < len
    · rw [dif_pos (show 0 < (Cursor.new len encoding).remaining from hlen)] at hstaged
      rw [dif_pos hlen]
      exact hstaged
    · obtain rfl : len = 0 := by omega
      cases encoding <;> exact hstaged

theorem stagedValueLength_agrees {stage : ValueStage} {core : Core} {flow : Flow}
    {context : NamedContext} (hsound : context.Sound flow (some stage.name) stage.name)
    (hindex : context.index = .indexed) (hvalue : stage.value = []) (len : ℕ)
    (encoding : Encoding) :
    Agrees (stagedValueLength stage core flow context len encoding)
      (textOfLength len encoding (fieldOf ⟨stage.table, core⟩ flow .indexed stage.name)) := by
  unfold stagedValueLength textOfLength
  split
  · exact fun input => rfl
  next hshort =>
    have hreading : Reading (Cursor.new len encoding) stage.value := by
      rw [hvalue]
      exact reading_new (not_lt.mp hshort) encoding
    have hstaged := @stagedValue_agrees stage core flow context _ hsound hindex hreading
    rw [hvalue] at hstaged
    unfold Phase.stagedValue at hstaged
    by_cases hlen : 0 < len
    · rw [dif_pos (show 0 < (Cursor.new len encoding).remaining from hlen)] at hstaged
      rw [dif_pos hlen]
      exact hstaged
    · obtain rfl : len = 0 := by omega
      cases encoding <;> exact hstaged

/-! ## Starts of representations -/

theorem roomy_context (decoder : Decoder) (flow : Flow) (index : Index) :
    Roomy flow (decoder.context flow.budget index).retainLimit :=
  decoder.retention_le_context flow.budget index

theorem startNamed_agrees (decoder : Decoder) (flow : Flow) {context : LiteralContext}
    (hroomy : Roomy flow context.retainLimit) :
    Means (decoder.startNamed context) flow (nameOf decoder flow context.index) := by
  unfold Decoder.startNamed
  cases hindex : context.index with
  | plain | never =>
    dsimp only
    rw [← hindex]
    exact Means.readyNamePrefix hroomy (by simp [Unfit, hindex])
  | indexed =>
    dsimp only
    cases hbegin : decoder.table.tryBegin with
    | none =>
      have hunfit : Unfit decoder context.index 0 := fun _ => by
        simpa using Table.tryBegin_eq_none hbegin
      dsimp only
      rw [← hindex]
      exact Means.readyNamePrefix hroomy hunfit
    | some stage =>
      obtain ⟨htable, hname⟩ := Table.tryBegin_eq_some hbegin
      have hmeans := @Means.stagedNamePrefix stage decoder.core flow context hroomy hindex hname
      rwa [htable] at hmeans

theorem startIndexed_agrees (decoder : Decoder) (flow : Flow) {context : LiteralContext}
    (hroomy : Roomy flow context.retainLimit) (index : ℕ) :
    Agrees ((decoder.startIndexed context index).map fun phase => (phase, flow))
      (fun input => (lookup decoder.table index).toOption.bind fun field =>
        valueOf decoder flow context.index field.name input) := by
  unfold Decoder.startIndexed
  cases hlookup : lookup decoder.table index with
  | error cause =>
    cases hindex : context.index with
    | plain | never =>
      simp only [decoder.retainName_of_not_lookup hlookup]
      exact fun input => rfl
    | indexed =>
      have hnone := decoder.indexed_of_not_lookup hlookup context.retainLimit
      dsimp only
      cases hindexed : decoder.indexed index context.retainLimit with
      | error cause => exact fun input => rfl
      | ok result => simp [hindexed] at hnone
  | ok field =>
    simp only [Except.toOption_ok, Option.bind_some]
    cases hindex : context.index with
    | plain | never =>
      obtain ⟨scratch, hretain, hholds⟩ :=
        decoder.retainName_of_lookup hlookup context.retainLimit
      have hsound : (context.begin field.name.length).Sound flow scratch field.name :=
        ⟨hroomy, rfl, hholds⟩
      have hunfit : Unfit decoder (context.begin field.name.length).index field.name.length := by
        simp [Unfit, LiteralContext.begin, hindex]
      have hmeans := Means.readyValuePrefix hsound hunfit
      rw [show (context.begin field.name.length).index = context.index from rfl, hindex] at hmeans
      simp only [hretain]
      exact hmeans
    | indexed =>
      obtain ⟨path, scratch, hindexed, hpath⟩ :=
        decoder.indexed_of_lookup hlookup context.retainLimit
      have hbegin : (context.begin field.name.length).index = .indexed := hindex
      simp only [hindexed]
      cases hpath with
      | ready _ hholds hunfit =>
        have hsound : (context.begin field.name.length).Sound flow scratch field.name :=
          ⟨hroomy, rfl, hholds⟩
        have hmeans := @Means.readyValuePrefix decoder flow _ _ _ hsound fun _ => hunfit
        rw [hbegin] at hmeans
        exact hmeans
      | staged stage _ htable hname hvalue =>
        have hsound : (context.begin field.name.length).Sound flow (some stage.name) stage.name :=
          ⟨hroomy, by rw [hname]; rfl, rfl⟩
        have hmeans := @Means.stagedValuePrefix stage decoder.core flow _ hsound hbegin hvalue
        rw [htable, hname] at hmeans
        exact hmeans

theorem apply_agrees (decoder : Decoder) (flow : Flow) (value : ℕ) (target : Integer) :
    Agrees (decoder.apply flow value target) (integerOf decoder flow value target) := by
  cases target with
  | indexed =>
    simp only [Decoder.apply, integerOf]
    cases lookup decoder.table value with
    | error cause => exact fun input => rfl
    | ok field => exact Means.representation _ _
  | dynamicSize =>
    simp only [Decoder.apply, integerOf]
    cases decoder.resize flow.budget value with
    | error cause => exact fun input => rfl
    | ok next => exact Means.representation _ _
  | literalName index =>
    simp only [Decoder.apply, integerOf, literalOf, Decoder.startLiteral]
    by_cases hzero : value = 0
    · rw [if_pos hzero, if_pos hzero]
      exact startNamed_agrees decoder flow (roomy_context decoder flow index)
    · rw [if_neg hzero, if_neg hzero]
      have hagrees := startIndexed_agrees decoder flow (roomy_context decoder flow index) value
      cases hstart : decoder.startIndexed (decoder.context flow.budget index) value with
      | error cause =>
        rw [hstart] at hagrees
        exact hagrees
      | ok phase =>
        rw [hstart] at hagrees
        exact hagrees

theorem start_agrees (decoder : Decoder) (flow : Flow) (first : UInt8) (bits : ℕ)
    (target : Integer) :
    Agrees (decoder.start flow first bits target) (startOf decoder flow first bits target) := by
  unfold Decoder.start startOf
  cases decoder.closeFor flow target with
  | error cause => exact fun input => rfl
  | ok flow =>
    simp only [Except.toOption_ok, Option.bind_some]
    by_cases hsmall : first.toNat % 2 ^ bits < PrefixedInt.maxPrefix bits
    · simp only [if_pos hsmall]
      exact apply_agrees decoder flow _ target
    · simp only [if_neg hsmall]
      exact Means.integer decoder flow _ target

theorem startByte_agrees (decoder : Decoder) (flow : Flow) (first : UInt8) :
    Agrees (decoder.startByte flow first) (fun rest => whole decoder flow (first :: rest)) := by
  unfold Decoder.startByte
  simp only [whole_cons]
  split_ifs
  all_goals exact start_agrees decoder flow first _ _

/-! ## Rounds -/

/-- What a round takes of the input, and what it leaves. -/
def Settles (outcome : Except Error (Phase × Flow × Bytes)) (meaning : Meaning) (input : Bytes) :
    Prop :=
  match outcome with
  | .error _ => ∀ more, meaning (input ++ more) = none
  | .ok (phase, flow, rest) =>
    ∃ next, Means phase flow next ∧ ∀ more, meaning (input ++ more) = next (rest ++ more)

theorem Agrees.settles {outcome : Except Error (Phase × Flow)} {meaning next : Meaning}
    {input rest : Bytes} (h : Agrees outcome next)
    (heq : ∀ more, meaning (input ++ more) = next (rest ++ more)) :
    Settles (outcome >>= fun result => pure (result.1, result.2, rest)) meaning input := by
  cases outcome with
  | error cause => exact fun more => (heq more).trans (h _)
  | ok result => exact ⟨next, h, heq⟩

theorem Agrees.settles_map {outcome : Except Error Phase} {flow : Flow} {meaning next : Meaning}
    {input rest : Bytes} (h : Agrees (outcome.map fun phase => (phase, flow)) next)
    (heq : ∀ more, meaning (input ++ more) = next (rest ++ more)) :
    Settles (outcome >>= fun phase => pure (phase, flow, rest)) meaning input := by
  cases outcome with
  | error cause => exact fun more => (heq more).trans (h _)
  | ok result => exact ⟨next, h, heq⟩

theorem settles_feedNumber {number : Continuation} {meaning : Meaning} (follow : ℕ → Meaning)
    {input : Bytes} {flow : Flow} {resume : Continuation → Phase}
    {complete : ℕ → Bytes → Except Error (Phase × Flow × Bytes)}
    (hmeaning : ∀ input, meaning input =
      (number.read input).toOption.bind fun result => follow result.1 result.2)
    (hpending : ∀ number, Means (resume number) flow fun input =>
      (number.read input).toOption.bind fun result => follow result.1 result.2)
    (hcomplete : ∀ value rest, (∀ more, meaning (input ++ more) = follow value (rest ++ more)) →
      Settles (complete value rest) meaning input) :
    Settles (feedNumber number input >>= fun fed =>
      match fed with
      | .pending number => pure (resume number, flow, [])
      | .complete value rest => complete value rest) meaning input := by
  have hread := read_append_of_feedNumber number input
  cases hfed : feedNumber number input with
  | error cause =>
    intro more
    have hmore := hread more
    rw [hfed] at hmore
    rw [hmeaning, hmore]
    rfl
  | ok fed =>
    cases fed with
    | pending next =>
      refine ⟨_, hpending next, fun more => ?_⟩
      have hmore := hread more
      rw [hfed] at hmore
      rw [hmeaning, hmore]
      rfl
    | complete value rest =>
      refine hcomplete value rest fun more => ?_
      have hmore := hread more
      rw [hfed] at hmore
      rw [hmeaning, hmore]
      rfl

theorem settles_opening {meaning : Meaning} {follow : Bytes → Meaning} {first : UInt8}
    {rest : Bytes} {flow : Flow} {resume : LengthState → Phase}
    {complete : ℕ → Except Error (Phase × Flow × Bytes)}
    (hmeaning : meaning = text follow)
    (hpending : ∀ length, Means (resume length) flow
      (textOfNumber length.number length.encoding follow))
    (hcomplete : ∀ len, (∀ more, meaning (first :: rest ++ more) =
        textOfLength len (encodingOf first) follow (rest ++ more)) →
      Settles (complete len) meaning (first :: rest)) :
    Settles (match lengthPrefix first with
      | .inr length => .ok (resume length, flow, rest)
      | .inl len => complete len) meaning (first :: rest) := by
  subst hmeaning
  cases hlength : lengthPrefix first with
  | inr length =>
    refine ⟨_, hpending length, fun more => ?_⟩
    simp only [List.cons_append, text, hlength]
  | inl len =>
    refine hcomplete len fun more => ?_
    simp only [List.cons_append, text, hlength]

theorem spillName_follows {stage : NameStage} {context : LiteralContext} {cursor : Cursor}
    (h : Reading cursor stage.name) :
    Scratch.Follows context.retainLimit (spillName stage context cursor) cursor stage.name := by
  have hleast : stage.name.length ≤ Scratch.least cursor stage.name := by
    unfold Scratch.least
    split <;> omega
  unfold spillName Bound.admitLen
  rw [h.len]
  by_cases hlen : stage.name.length ≤ context.retainLimit.value
  · rw [if_pos hlen]
    refine ⟨rfl, ?_⟩
    rintro written ⟨rfl⟩
    cases hoption : context.retainLimit.option with
    | none => rfl
    | some bound =>
      rw [← context.retainLimit.new_option, hoption] at hlen
      simpa [Bound.new] using hlen
  · rw [if_neg hlen]
    exact (not_le.mp hlen).trans_le hleast

theorem spillValue_follows {stage : ValueStage} {context : NamedContext} {cursor : Cursor}
    (h : Reading cursor stage.value) :
    Scratch.Follows context.limit (spillValue stage context cursor).2 cursor stage.value ∧
      ((spillValue stage context cursor).2.isSome →
        (spillValue stage context cursor).1 = some stage.name) := by
  have hleast : stage.value.length ≤ Scratch.least cursor stage.value := by
    unfold Scratch.least
    split <;> omega
  unfold spillValue Bound.admitLen
  rw [h.len]
  by_cases hlen : stage.value.length ≤ context.limit.value
  · rw [if_pos hlen]
    refine ⟨⟨rfl, ?_⟩, fun _ => rfl⟩
    rintro written ⟨rfl⟩
    cases hoption : context.limit.option with
    | none => rfl
    | some bound =>
      rw [← context.limit.new_option, hoption] at hlen
      simpa [Bound.new] using hlen
  · rw [if_neg hlen]
    exact ⟨(not_le.mp hlen).trans_le hleast, by simp⟩

theorem settles_feed {limit : Bound} {scratch : Option Bytes} {cursor : Cursor}
    {seen payload input tail : Bytes} {follow : Bytes → Meaning}
    {complete : Cursor × Option Bytes → Except Error (Phase × Flow × Bytes)}
    (hscratch : Scratch.Follows limit scratch cursor seen)
    (hlength : payload.length ≤ cursor.remaining) (hinput : input = payload ++ tail)
    (hcomplete : ∀ next output scratch', cursor.run payload = some (next, output) →
      Scratch.Follows limit scratch' next (seen ++ output) → (scratch'.isSome → scratch.isSome) →
      (∀ more, textFrom cursor seen follow (input ++ more) =
        textFrom next (seen ++ output) follow (tail ++ more)) →
      Settles (complete (next, scratch')) (textFrom cursor seen follow) input) :
    Settles (Scratch.feed limit cursor scratch payload >>= complete)
      (textFrom cursor seen follow) input := by
  cases hrun : cursor.run payload with
  | none =>
    obtain ⟨cause, hfeed⟩ := Scratch.feed_of_not_run hscratch hrun
    rw [hfeed]
    intro more
    rw [hinput, List.append_assoc]
    exact textFrom_append_of_not_run seen hlength hrun _ _
  | some result =>
    obtain ⟨next, output⟩ := result
    obtain ⟨scratch', hfeed, hnext, hsome⟩ := Scratch.feed_of_run hscratch hrun
    rw [hfeed]
    refine hcomplete next output scratch' hrun hnext hsome fun more => ?_
    rw [hinput, List.append_assoc]
    exact textFrom_append seen hlength hrun _ _

/-- A part of a string that goes to a staged entry, which spills over if there is no room. -/
theorem settles_feedStage {σ : Type} {write : σ → Bytes → Except Overflow σ}
    {stage : σ} {cursor : Cursor} {seen payload input tail : Bytes} {follow : Bytes → Meaning}
    {complete : Option (Cursor × σ) → Except Error (Phase × Flow × Bytes)}
    (hlaw : LawfulSink write fun _ => True) (hlength : payload.length ≤ cursor.remaining)
    (hinput : input = payload ++ tail)
    (hstored : ∀ next output last, cursor.run payload = some (next, output) →
      write stage output = .ok last →
      (∀ more, textFrom cursor seen follow (input ++ more) =
        textFrom next (seen ++ output) follow (tail ++ more)) →
      Settles (complete (some (next, last))) (textFrom cursor seen follow) input)
    (hspilled : (∀ next output, cursor.run payload = some (next, output) →
        ∃ error, write stage output = .error error) →
      Settles (complete none) (textFrom cursor seen follow) input) :
    Settles (feedStage write cursor stage payload >>= complete) (textFrom cursor seen follow)
      input := by
  cases hrun : cursor.run payload with
  | none =>
    rcases feedStage_of_not_run hlaw trivial hrun with hfed | hfed
    · rw [hfed]
      intro more
      rw [hinput, List.append_assoc]
      exact textFrom_append_of_not_run seen hlength hrun _ _
    · rw [hfed]
      exact hspilled fun next output h => by simp [hrun] at h
  | some result =>
    obtain ⟨next, output⟩ := result
    rcases feedStage_of_run hlaw trivial hrun with ⟨last, hwrite, hfed⟩ | ⟨error, hwrite, hfed⟩
    · rw [hfed]
      refine hstored next output last hrun hwrite fun more => ?_
      rw [hinput, List.append_assoc]
      exact textFrom_append seen hlength hrun _ _
    · rw [hfed]
      refine hspilled fun next' output' h => ⟨error, ?_⟩
      obtain ⟨-, rfl⟩ := Prod.mk.inj (Option.some.inj (hrun.symm.trans h))
      exact hwrite

/-- Every round keeps what a phase stands for. -/
theorem Means.advance {phase : Phase} {flow : Flow} {meaning : Meaning}
    (h : Means phase flow meaning) (first : UInt8) (rest : Bytes) :
    Settles (phase.advance flow first rest) meaning (first :: rest) := by
  -- The part of the input that belongs to a string.
  have hinput (string : StringState) :
      first :: rest = (first :: rest).take (min (first :: rest).length string.cursor.remaining) ++
        (first :: rest).drop (min (first :: rest).length string.cursor.remaining) :=
    (List.take_append_drop _ _).symm
  have hlength (string : StringState) :
      ((first :: rest).take (min (first :: rest).length string.cursor.remaining)).length ≤
        string.cursor.remaining := by
    rw [List.length_take]
    omega
  cases h with
  | representation decoder =>
    have hwhole := whole_append_of_run decoder flow (first :: rest)
    simp only [Phase.advance]
    cases hrun : Complete.run decoder flow (first :: rest) with
    | complete next flow' =>
      refine ⟨_, Means.representation next flow', fun more => ?_⟩
      rw [hwhole, hrun]
      rfl
    | failed cause =>
      intro more
      rw [hwhole, hrun]
    | needMore byte tail next flow' =>
      refine (startByte_agrees next flow' byte).settles fun more => ?_
      rw [hwhole, hrun]
      rfl
  | integer decoder _ number target =>
    exact settles_feedNumber (fun value => integerOf decoder flow value target) (fun _ => rfl)
      (fun number => Means.integer decoder flow number target)
      fun value tail heq => (apply_agrees decoder flow value target).settles heq
  | readyNamePrefix hroomy hunfit =>
    exact settles_opening rfl (Means.readyNameLength hroomy hunfit) fun len heq =>
      (nameLength_agrees hroomy hunfit len (encodingOf first)).settles_map heq
  | stagedNamePrefix hroomy hindex hname =>
    exact settles_opening rfl (Means.stagedNameLength hroomy hindex hname) fun len heq =>
      (stagedNameLength_agrees hroomy hindex hname len (encodingOf first)).settles_map heq
  | readyValuePrefix hsound hunfit =>
    exact settles_opening rfl (Means.readyValueLength hsound hunfit) fun len heq =>
      (valueLength_agrees hsound hunfit len (encodingOf first)).settles heq
  | stagedValuePrefix hsound hindex hvalue =>
    exact settles_opening rfl (Means.stagedValueLength hsound hindex hvalue) fun len heq =>
      (stagedValueLength_agrees hsound hindex hvalue len (encodingOf first)).settles heq
  | @readyNameLength decoder _ context hroomy hunfit length =>
    exact settles_feedNumber
      (fun len => textOfLength len length.encoding (valueOf decoder flow context.index))
      (fun _ => rfl)
      (fun number => Means.readyNameLength hroomy hunfit ⟨number, length.encoding⟩)
      fun len tail heq =>
        (nameLength_agrees hroomy hunfit len length.encoding).settles_map heq
  | @stagedNameLength stage core _ context hroomy hindex hname length =>
    exact settles_feedNumber
      (fun len => textOfLength len length.encoding (valueOf ⟨stage.table, core⟩ flow .indexed))
      (fun _ => rfl)
      (fun number => Means.stagedNameLength hroomy hindex hname ⟨number, length.encoding⟩)
      fun len tail heq =>
        (stagedNameLength_agrees hroomy hindex hname len length.encoding).settles_map heq
  | @readyValueLength decoder _ context name bytes hsound hunfit length =>
    exact settles_feedNumber
      (fun len => textOfLength len length.encoding (fieldOf decoder flow context.index bytes))
      (fun _ => rfl)
      (fun number => Means.readyValueLength hsound hunfit ⟨number, length.encoding⟩)
      fun len tail heq => (valueLength_agrees hsound hunfit len length.encoding).settles heq
  | @stagedValueLength stage core _ context hsound hindex hvalue length =>
    exact settles_feedNumber
      (fun len => textOfLength len length.encoding
        (fieldOf ⟨stage.table, core⟩ flow .indexed stage.name))
      (fun _ => rfl)
      (fun number => Means.stagedValueLength hsound hindex hvalue ⟨number, length.encoding⟩)
      fun len tail heq =>
        (stagedValueLength_agrees hsound hindex hvalue len length.encoding).settles heq
  | @readyNameString decoder _ context string scratch seen hroomy hreading hscratch hunfit =>
    refine settles_feed hscratch (hlength string) (hinput string) ?_
    intro next output scratch' hrun hnext _ heq
    exact (readyName_agrees hroomy (hreading.of_run hrun) hnext
      (hunfit.mono (by simp))).settles_map heq
  | @readyValueString decoder _ context name bytes string scratch seen hroomy hlen hname hreading
      hscratch hunfit =>
    refine settles_feed hscratch (hlength string) (hinput string) ?_
    intro next output scratch' hrun hnext hsome heq
    exact (readyValue_agrees hroomy hlen (fun h => hname (hsome h)) (hreading.of_run hrun) hnext
      (hunfit.mono (by simp))).settles heq
  | @stagedNameString stage core _ context string hroomy hindex hreading =>
    refine settles_feedStage NameStage.lawfulSink_write (hlength string) (hinput string) ?_ ?_
    · intro next output last hrun hwrite heq
      obtain ⟨htable, hname⟩ := NameStage.of_write_ok hwrite
      have hnext := hreading.of_run hrun
      rw [← hname] at hnext heq
      have hagrees := @stagedName_agrees last core flow _ _ hroomy hindex hnext
      rw [htable] at hagrees
      exact hagrees.settles_map heq
    · intro hrefused
      refine settles_feed (spillName_follows hreading) (hlength string) (hinput string) ?_
      intro next output scratch' hrun hnext _ heq
      obtain ⟨error, hwrite⟩ := hrefused next output hrun
      have hunfit : Unfit ⟨stage.discard, core⟩ context.index (stage.name ++ output).length :=
        fun _ => NameStage.of_write_error hwrite
      have hagrees := @readyName_agrees _ flow _ _ _ _ hroomy (hreading.of_run hrun) hnext hunfit
      rw [hindex] at hagrees
      exact hagrees.settles_map heq
  | @stagedValueString stage core _ context string hsound hindex hreading =>
    refine settles_feedStage ValueStage.lawfulSink_write (hlength string) (hinput string) ?_ ?_
    · intro next output last hrun hwrite heq
      obtain ⟨htable, hname, hvalue⟩ := ValueStage.of_write_ok hwrite
      have hnext := hreading.of_run hrun
      have hlast : context.Sound flow (some last.name) last.name := by rwa [hname]
      rw [← hvalue] at hnext heq
      have hagrees := @stagedValue_agrees last core flow _ _ hlast hindex hnext
      rw [htable, hname] at hagrees
      exact hagrees.settles heq
    · intro hrefused
      obtain ⟨hfollows, hspilled⟩ := @spillValue_follows stage context _ hreading
      refine settles_feed hfollows (hlength string) (hinput string) ?_
      intro next output scratch' hrun hnext hsome heq
      obtain ⟨error, hwrite⟩ := hrefused next output hrun
      have hunfit : Unfit ⟨stage.discard, core⟩ context.index
          (stage.name.length + (stage.value ++ output).length) :=
        fun _ => ValueStage.of_write_error hwrite
      have hname (h : scratch'.isSome) : Scratch.Holds context.retainLimit
          (spillValue stage context string.cursor).1 stage.name := by
        rw [hspilled (hsome h)]
        exact hsound.holds
      have hagrees := @readyValue_agrees _ flow _ _ _ _ _ _ hsound.roomy hsound.len hname
        (hreading.of_run hrun) hnext hunfit
      rw [hindex] at hagrees
      exact hagrees.settles heq

/-! ## Fragments -/

/-- A fragment takes a phase to one that stands for what follows it. -/
theorem Means.decode {phase : Phase} {flow : Flow} {meaning : Meaning}
    (h : Means phase flow meaning) (input : Bytes) :
    match phase.decode flow input with
    | .error _ => ∀ more, meaning (input ++ more) = none
    | .ok (phase, flow) => ∃ next, Means phase flow next ∧
        ∀ more, meaning (input ++ more) = next more := by
  -- The loop takes at least a byte of the input in every round.
  induction hlen : input.length using Nat.strong_induction_on
    generalizing phase flow meaning input with
  | _ len ih =>
    cases input with
    | nil =>
      rw [Phase.decode]
      exact ⟨meaning, h, fun more => rfl⟩
    | cons first rest =>
      have hround := h.advance first rest
      rw [Phase.decode_cons]
      cases hadvance : phase.advance flow first rest with
      | error cause =>
        rw [hadvance] at hround
        exact hround
      | ok result =>
        obtain ⟨phase', flow', tail⟩ := result
        rw [hadvance] at hround
        obtain ⟨next, hnext, heq⟩ := hround
        have htail := ih tail.length (hlen ▸ Phase.length_of_advance hadvance) hnext tail rfl
        simp only [heq]
        exact htail

theorem Means.finish {phase : Phase} {flow : Flow} {meaning : Meaning}
    (h : Means phase flow meaning) :
    (phase.finish >>= fun decoder => pure (decoder, flow)).toOption = meaning [] := by
  cases h with
  | representation decoder =>
    rw [whole, Complete.block, Complete.run]
    rfl
  | readyNameString | stagedNameString | readyValueString | stagedValueString =>
    -- Some of the string is still to come.
    rw [textFrom_nil]
    rfl
  | _ => rfl

theorem Means.decode_fragments {block : Block} {meaning : Meaning}
    (h : Means block.phase block.flow meaning) (fragments : List Bytes) :
    (fragments.foldlM Block.decode block >>= fun block =>
      block.phase.finish >>= fun decoder => pure (decoder, block.flow)).toOption =
        meaning fragments.flatten := by
  induction fragments generalizing block meaning with
  | nil => exact h.finish
  | cons fragment fragments ih =>
    have hfragment := h.decode fragment
    rw [List.foldlM_cons, List.flatten_cons, Block.decode]
    split at hfragment
    next cause hdecode =>
      rw [hdecode, hfragment]
      rfl
    next phase flow hdecode =>
      obtain ⟨next, hnext, heq⟩ := hfragment
      rw [hdecode, heq]
      exact @ih ⟨phase, flow⟩ next hnext

/-- A block that is cut into fragments is decoded as the whole block is: the same blocks are
accepted, and with the same fields, admission and table. -/
theorem Block.decode_fragments_iff (decoder : Decoder) (fragments : List Bytes)
    (result : Decoder × Admission × List Entry) :
    (fragments.foldlM Block.decode (Block.new decoder) >>= Block.finish) = .ok result ↔
      decoder.decodeLimit fragments.flatten = .ok result := by
  have hfragments := @Means.decode_fragments (Block.new decoder) _
    (Means.representation decoder ⟨decoder.budget, []⟩) fragments
  rw [← Except.toOption_eq_some_iff, ← Except.toOption_eq_some_iff, Decoder.decodeLimit]
  simp only [Block.finish, Except.toOption_bind, Except.toOption_pure] at hfragments ⊢
  rw [show (Complete.block decoder ⟨decoder.budget, []⟩ fragments.flatten).toOption =
    whole decoder ⟨decoder.budget, []⟩ fragments.flatten from rfl, ← hfragments]
  simp only [Option.bind_assoc, Option.bind_some]

end Sark.Hpack
