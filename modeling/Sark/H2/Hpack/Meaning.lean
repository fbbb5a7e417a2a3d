import Sark.H2.Hpack.Literal
import Sark.H2.Hpack.Phase

/-!
# The meaning of a cut block

What is still to come of a block is a function of the input: the decoder and the fields at its end,
if it is accepted. A string literal that has been read in part waits for the rest of it and then
goes on with its contents; that is all the phases of the resumable decoder have to remember.

* `whole_cons`: a block whose first byte is read is one of the integers, strings and literals below.
* `parse_append`: more input does not change the verdict on a representation.
-/

namespace Sark.Hpack

open Metadata Compress

/-- What a decoder does with the rest of a block. -/
abbrev Meaning :=
  Bytes → Option (Decoder × Flow)

/-- Between two representations: the one-shot decoder. -/
def whole (decoder : Decoder) (flow : Flow) : Meaning := fun input =>
  (Complete.block decoder flow input).toOption

/-- A string of which `seen` was decoded, and what follows its contents. -/
def textFrom (cursor : Cursor) (seen : Bytes) (next : Bytes → Meaning) : Meaning := fun input =>
  (cursor.read input).bind fun result => next (seen ++ result.1) result.2

/-- A string whose length is known. -/
def textOfLength (len : ℕ) (encoding : Encoding) (next : Bytes → Meaning) : Meaning :=
  if maxLiteralLen < len then fun _ => none else textFrom (Cursor.new len encoding) [] next

/-- A string whose length is being read. -/
def textOfNumber (number : Continuation) (encoding : Encoding) (next : Bytes → Meaning) :
    Meaning := fun input =>
  (number.read input).toOption.bind fun result => textOfLength result.1 encoding next result.2

/-- A string literal. -/
def text (next : Bytes → Meaning) : Meaning
  | [] => none
  | first :: rest =>
    match lengthPrefix first with
    | .inl len => textOfLength len (encodingOf first) next rest
    | .inr length => textOfNumber length.number length.encoding next rest

/-- A literal that is complete, and the representations behind it. -/
def fieldOf (decoder : Decoder) (flow : Flow) (index : Index) (name value : Bytes) : Meaning :=
  whole (decoder.literal flow index name value).1 (decoder.literal flow index name value).2

/-- A literal whose name is known. -/
def valueOf (decoder : Decoder) (flow : Flow) (index : Index) (name : Bytes) : Meaning :=
  text (fieldOf decoder flow index name)

/-- A literal with a name of its own. -/
def nameOf (decoder : Decoder) (flow : Flow) (index : Index) : Meaning :=
  text (valueOf decoder flow index)

/-- A literal whose name index is known. -/
def literalOf (decoder : Decoder) (flow : Flow) (index : Index) (name : ℕ) : Meaning :=
  if name = 0 then nameOf decoder flow index
  else fun input => (lookup decoder.table name).toOption.bind fun field =>
    valueOf decoder flow index field.name input

/-- A representation whose integer is known. -/
def integerOf (decoder : Decoder) (flow : Flow) (value : ℕ) : Integer → Meaning
  | .indexed => fun input => (lookup decoder.table value).toOption.bind fun field =>
    whole decoder (flow.field field.name field.value) input
  | .literalName index => literalOf decoder flow index value
  | .dynamicSize => fun input => (decoder.resize flow.budget value).toOption.bind fun decoder =>
    whole decoder flow input

/-- A representation whose integer is being read. -/
def numberOf (decoder : Decoder) (flow : Flow) (number : Continuation) (target : Integer) :
    Meaning := fun input =>
  (number.read input).toOption.bind fun result =>
    integerOf decoder flow result.1 target result.2

/-- A representation behind its first byte. -/
def startOf (decoder : Decoder) (flow : Flow) (first : UInt8) (bits : ℕ) (target : Integer) :
    Meaning := fun rest =>
  (decoder.closeFor flow target).toOption.bind fun flow =>
    if first.toNat % 2 ^ bits < PrefixedInt.maxPrefix bits then
      integerOf decoder flow (first.toNat % 2 ^ bits) target rest
    else numberOf decoder flow (Continuation.new (PrefixedInt.maxPrefix bits)) target rest

/-! ## Strings -/

/-- A string literal that is complete. -/
theorem text_eq (next : Bytes → Meaning) (input : Bytes) :
    text next input = (Encoded.take input).toOption.bind fun result =>
      result.1.contents.bind fun contents => next contents result.2 := by
  cases input with
  | nil => rfl
  | cons first rest =>
    -- The length of the literal decides, however it was read.
    have hlength (len : ℕ) (tail : Bytes) : textOfLength len (encodingOf first) next tail =
        (if maxLiteralLen < len then (throw .badString : Except Error (Encoded × Bytes))
          else if tail.length < len then throw .needMore
          else pure (⟨tail.take len, encodingOf first⟩, tail.drop len)).toOption.bind fun result =>
            result.1.contents.bind fun contents => next contents result.2 := by
      unfold textOfLength
      split
      · rfl
      next hshort =>
        split
        next hmore => simp [textFrom, Cursor.read, Cursor.new, hmore]
        next henough =>
          have hlen : 2 * len < 2 ^ 32 := by
            simp only [maxLiteralLen] at hshort
            omega
          have hread := Cursor.read_new hlen (encodingOf first) (not_lt.mp henough)
          simp only [textFrom, hread, Except.toOption_pure, Option.bind_some, Encoded.contents]
          cases (encodingOf first).decode (tail.take len) <;> simp
    simp only [text, lengthPrefix, Encoded.take, PrefixedInt.take, PrefixedInt.maxPrefix,
      Except.toOption_bind, Except.toOption_mapError]
    norm_num only
    by_cases hsmall : first.toNat % 128 < 127
    · simp only [if_pos hsmall, Except.toOption_ok, Option.bind_some]
      exact hlength _ _
    · simp only [if_neg hsmall, textOfNumber, hlength, Option.bind_assoc]

/-! ## Representations -/

theorem Encoded.length_of_take {input rest : Bytes} {encoded : Encoded}
    (h : take input = .ok (encoded, rest)) : encoded.payload.length ≤ maxLiteralLen := by
  unfold take at h
  split at h
  · contradiction
  · obtain ⟨⟨len, tail⟩, -, h⟩ := Except.bind_eq_ok_iff.mp h
    dsimp only at h
    split at h
    · contradiction
    next hlen =>
      split at h
      · contradiction
      · obtain ⟨rfl, -⟩ := Prod.mk.inj (Except.ok.inj h)
        exact (List.length_take_le _ _).trans (not_lt.mp hlen)

/-- The strings of a literal and what they mean. -/
theorem parseLiteral_bind (decoder : Decoder) (flow : Flow) (index : Index) (name : ℕ)
    (input : Bytes) :
    ((Kind.parseLiteral name index input).toOption.bind fun result =>
      (Complete.apply decoder flow result.1).toOption.bind fun state =>
        whole state.1 state.2 result.2) =
      (decoder.core.field flow).toOption.bind fun flow => literalOf decoder flow index name input := by
  -- The value, once the name is known.
  have hvalue (flow : Flow) (nameBytes tail : Bytes) : valueOf decoder flow index nameBytes tail =
      (Encoded.take tail).toOption.bind fun result =>
        (result.1.contents.map fun value => decoder.literal flow index nameBytes value).bind
          fun state => whole state.1 state.2 result.2 := by
    rw [valueOf, text_eq]
    congr 1
    funext result
    cases result.1.contents <;> rfl
  -- A literal that was parsed.
  have happly {source : Name} (hshort : Complete.Short source) (value : Encoded) :
      (Complete.apply decoder flow (.literal index source value)).toOption =
        (decoder.core.field flow).toOption.bind fun flow =>
          (source.contents decoder.table).bind fun nameBytes =>
            value.contents.map fun valueBytes =>
              decoder.literal flow index nameBytes valueBytes := by
    rw [Complete.apply, Complete.readLiteral, Except.toOption_bind]
    congr 1
    funext flow
    cases index with
    | plain => exact Complete.readPlain_toOption decoder flow (by decide) source value
    | never => exact Complete.readPlain_toOption decoder flow (by decide) source value
    | indexed => exact Complete.readIndexed_toOption decoder flow hshort value
  simp only [Kind.parseLiteral, Except.toOption_bind, Option.bind_assoc, literalOf]
  by_cases hzero : name = 0
  · subst hzero
    simp only [Name.take, if_true, Except.toOption_bind, Except.toOption_pure, Option.bind_assoc,
      Option.bind_some, nameOf, text_eq, hvalue]
    cases hname : Encoded.take input with
    | error cause =>
      simp only [Except.toOption_error, Option.bind_none]
      cases (decoder.core.field flow).toOption <;> rfl
    | ok result =>
      obtain ⟨encoded, tail⟩ := result
      have hshort : Complete.Short (.literal encoded) := by
        rintro _ ⟨rfl⟩
        exact Encoded.length_of_take hname
      simp only [Except.toOption_ok, Option.bind_some, happly hshort, Name.contents]
      cases (decoder.core.field flow).toOption with
      | none => simp
      | some flow =>
        cases encoded.contents with
        | none => simp
        | some nameBytes => simp
  · have hshort : Complete.Short (.indexed name) := by
      rintro _ ⟨⟩
    simp only [Name.take, if_neg hzero, Except.toOption_pure, Option.bind_some, happly hshort,
      Name.contents, hvalue]
    cases (decoder.core.field flow).toOption with
    | none => simp
    | some flow =>
      cases (lookup decoder.table name).toOption with
      | none => simp
      | some field => simp

theorem whole_cons_eq_bind (decoder : Decoder) (flow : Flow) (first : UInt8) (rest : Bytes) :
    whole decoder flow (first :: rest) =
      (Kind.parse (first :: rest)).toOption.bind fun result =>
        (Complete.apply decoder flow result.1).toOption.bind fun state =>
          whole state.1 state.2 result.2 := by
  simp only [whole, Complete.block, Complete.run_cons]
  cases hparse : Kind.parse (first :: rest) with
  | error cause => cases cause <;> rfl
  | ok result =>
    obtain ⟨kind, tail⟩ := result
    cases happly : Complete.apply decoder flow kind with
    | error cause => simp [happly]
    | ok state => simp [happly]

theorem bind_comm {α β γ : Type*} (x : Option α) (y : Option β) (f : α → β → Option γ) :
    (x.bind fun a => y.bind fun b => f a b) = y.bind fun b => x.bind fun a => f a b := by
  cases x <;> cases y <;> rfl

/-- The first byte of a block tells what it starts with. -/
theorem whole_cons (decoder : Decoder) (flow : Flow) (first : UInt8) (rest : Bytes) :
    whole decoder flow (first :: rest) =
      if 128 ≤ first.toNat then startOf decoder flow first 7 .indexed rest
      else if 64 ≤ first.toNat then startOf decoder flow first 6 (.literalName .indexed) rest
      else if 32 ≤ first.toNat then startOf decoder flow first 5 .dynamicSize rest
      else startOf decoder flow first 4
        (.literalName (if 16 ≤ first.toNat then .never else .plain)) rest := by
  -- An integer in the low bits of the first byte or behind it.
  have htake (bits : ℕ) (flow : Flow) (target : Integer) :
      (if first.toNat % 2 ^ bits < PrefixedInt.maxPrefix bits then
        integerOf decoder flow (first.toNat % 2 ^ bits) target rest
      else numberOf decoder flow (Continuation.new (PrefixedInt.maxPrefix bits)) target rest) =
      (PrefixedInt.take bits (first :: rest)).toOption.bind fun result =>
        integerOf decoder flow result.1 target result.2 := by
    unfold PrefixedInt.take
    dsimp only
    split
    · rfl
    · rfl
  rw [whole_cons_eq_bind, Kind.parse]
  simp only [startOf, htake]
  split_ifs
  all_goals simp only [Except.toOption_bind, Except.toOption_mapError, Except.toOption_pure,
    Option.bind_assoc, Option.bind_some, parseLiteral_bind, Decoder.closeFor]
  · rw [bind_comm]
    simp only [Complete.apply, Complete.indexed, integerOf, Except.toOption_bind,
      Except.toOption_pure, Option.bind_assoc, Option.bind_some]
  · rw [bind_comm]
    rfl
  · simp only [Complete.apply, integerOf, Except.toOption_bind, Except.toOption_pure,
      Except.toOption_ok, Option.bind_assoc, Option.bind_some]
  · rw [bind_comm]
    rfl
  · rw [bind_comm]
    rfl

/-! ## More input -/

/-- A parser whose verdict does not change when more input arrives. -/
def Stable {α : Type*} (parser : Bytes → Except Error (α × Bytes)) : Prop :=
  ∀ input more, parser input ≠ .error .needMore →
    parser (input ++ more) = (parser input).map fun result => (result.1, result.2 ++ more)

theorem Stable.bind {α β : Type} {parser : Bytes → Except Error (α × Bytes)}
    {next : α → Bytes → Except Error (β × Bytes)} (hparser : Stable parser)
    (hnext : ∀ a, Stable (next a)) :
    Stable fun input => parser input >>= fun result => next result.1 result.2 := by
  intro input more hverdict
  cases hfirst : parser input with
  | error cause =>
    have hcause : parser input ≠ .error .needMore := by
      intro hmore
      exact hverdict (by simp [hmore, Bind.bind, Except.bind])
    simp only [hparser input more hcause, hfirst, Except.map]
    rfl
  | ok result =>
    have happend := hparser input more (by simp [hfirst])
    rw [hfirst] at happend
    simp only [happend, hfirst, Except.map]
    refine hnext result.1 result.2 more ?_
    simpa [hfirst, Bind.bind, Except.bind] using hverdict

theorem stable_pure {α : Type*} (a : α) :
    Stable fun input => (pure (a, input) : Except Error (α × Bytes)) := by
  intro input more _
  rfl

theorem stable_takeInt (bits : ℕ) :
    Stable fun input => (PrefixedInt.take bits input).mapError Error.ofInteger := by
  intro input more hverdict
  have htake : PrefixedInt.take bits input ≠ .error .needMore := by
    intro hmore
    exact hverdict (by simp [hmore, Except.mapError, Error.ofInteger])
  dsimp only
  rw [PrefixedInt.take_append more htake]
  cases PrefixedInt.take bits input <;> rfl

theorem stable_takeEncoded : Stable Encoded.take := by
  intro input more hverdict
  cases input with
  | nil => exact absurd rfl hverdict
  | cons first rest =>
    have hpayload (len : ℕ) : Stable fun tail =>
        if maxLiteralLen < len then throw Error.badString
        else if tail.length < len then throw Error.needMore
        else pure (Encoded.mk (tail.take len) (encodingOf first), tail.drop len) := by
      intro tail more hverdict
      dsimp only at hverdict ⊢
      split
      · rfl
      next hshort =>
        rw [if_neg hshort] at hverdict
        split at hverdict
        · exact absurd rfl hverdict
        next henough =>
          rw [if_neg (by rw [List.length_append]; omega), if_neg henough,
            List.take_append_of_le_length (not_lt.mp henough),
            List.drop_append_of_le_length (not_lt.mp henough)]
          rfl
    exact ((stable_takeInt 7).bind hpayload) (first :: rest) more hverdict

theorem stable_takeName (name : ℕ) : Stable (Name.take name) := by
  unfold Name.take
  split
  · exact stable_takeEncoded.bind fun encoded => stable_pure (Name.literal encoded)
  · exact stable_pure (Name.indexed name)

theorem stable_parseLiteral (name : ℕ) (index : Index) :
    Stable (Kind.parseLiteral name index) :=
  (stable_takeName name).bind fun name =>
    stable_takeEncoded.bind fun value => stable_pure (Kind.literal index name value)

theorem stable_parse : Stable Kind.parse := by
  intro input more hverdict
  cases input with
  | nil => exact absurd rfl hverdict
  | cons first rest =>
    simp only [Kind.parse, List.cons_append] at hverdict ⊢
    split_ifs at hverdict ⊢
    · exact ((stable_takeInt 7).bind fun index => stable_pure (Kind.indexed index))
        (first :: rest) more hverdict
    · exact ((stable_takeInt 6).bind fun name => stable_parseLiteral name .indexed)
        (first :: rest) more hverdict
    · exact ((stable_takeInt 5).bind fun size => stable_pure (Kind.resize size))
        (first :: rest) more hverdict
    · exact ((stable_takeInt 4).bind fun name => stable_parseLiteral name .never)
        (first :: rest) more hverdict
    · exact ((stable_takeInt 4).bind fun name => stable_parseLiteral name .plain)
        (first :: rest) more hverdict

/-- What `Complete::run` leaves is the rest of the block. -/
theorem whole_append_of_run (decoder : Decoder) (flow : Flow) (input more : Bytes) :
    whole decoder flow (input ++ more) =
      match Complete.run decoder flow input with
      | .complete decoder flow => whole decoder flow more
      | .needMore first rest decoder flow => whole decoder flow (first :: rest ++ more)
      | .failed _ => none := by
  induction hlen : input.length using Nat.strong_induction_on generalizing input decoder flow with
  | _ len ih =>
    cases input with
    | nil => simp [Complete.run]
    | cons first rest =>
      rw [Complete.run_cons]
      cases hparse : Kind.parse (first :: rest) with
      | error cause =>
        have hfail (hcause : cause ≠ .needMore) : whole decoder flow (first :: rest ++ more) = none := by
          have happend := stable_parse (first :: rest) more (by simpa [hparse] using hcause)
          rw [hparse] at happend
          rw [List.cons_append] at happend ⊢
          rw [whole_cons_eq_bind, happend]
          rfl
        cases cause with
        | needMore => rfl
        | _ => exact hfail (by simp)
      | ok result =>
        obtain ⟨kind, tail⟩ := result
        have happend := stable_parse (first :: rest) more (by simp [hparse])
        rw [hparse] at happend
        have hshort := Kind.length_of_parse hparse
        rw [List.cons_append] at happend ⊢
        rw [whole_cons_eq_bind, happend]
        simp only [Except.map, Except.toOption_ok, Option.bind_some]
        cases Complete.apply decoder flow kind with
        | error cause => rfl
        | ok state => exact ih tail.length (hlen ▸ hshort) state.1 state.2 tail rfl

end Sark.Hpack
