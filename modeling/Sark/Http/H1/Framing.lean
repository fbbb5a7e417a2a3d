import Sark.Http.H1.Transfer

/-!
# HTTP/1 message framing

`Fields` is the accumulator of `http/src/h1/framing.rs` for the two fields that decide the length
of a message body. A head is a sequence of `FieldLine`s; each reaches the accumulator on one of two
routes, either directly (`tryLength`, `tryCoding`) or after a scanner has parsed the value on its
own (`trySet`, `tryAppend`).

Whatever the accumulator admits has one body length at most, on whichever routes its lines came.
The run is followed by `Fields.Tracks`, which ties the state to the lines read so far.
-/

namespace Sark.Http

open Transfer

/-- `field::Error`, the rejections of the accumulator. -/
inductive FieldError
  | duplicateContentLength
  | contentLengthWithTransferEncoding
  | invalidContentLength (error : IntError)
  | invalidTransferEncoding (error : Value.Error)
  deriving DecidableEq, Repr

/-- The rejections of a head scanner that carries an accumulator. -/
inductive HeadError
  | contentLength (error : IntError)
  | transferEncoding (error : Value.Error)
  | message (error : FieldError)
  deriving DecidableEq, Repr

/-- How a field value reaches the accumulator: as bytes, or parsed beforehand by the scanner. -/
inductive Route
  | direct
  | scanned
  deriving DecidableEq, Repr

/-- One framing field line. -/
inductive FieldLine
  | contentLength (route : Route) (value : Bytes)
  | transferEncoding (route : Route) (value : Bytes)
  deriving DecidableEq, Repr

/-- The `Content-Length` values of a head. -/
def FieldLine.lengths (lines : List FieldLine) : List Bytes :=
  lines.filterMap fun
    | .contentLength _ value => some value
    | .transferEncoding _ _ => none

/-- The `Transfer-Encoding` values of a head. -/
def FieldLine.codings (lines : List FieldLine) : List Bytes :=
  lines.filterMap fun
    | .contentLength _ _ => none
    | .transferEncoding _ value => some value

/-- `framing::Fields`: borrow-free state for fields that determine message framing. -/
structure Fields where
  /-- The accepted length, if any. -/
  contentLength : Option ℕ
  /-- The codings so far. -/
  transfer : Transfer
  deriving DecidableEq

namespace Fields

/-- `Fields::default`. -/
def default : Fields :=
  ⟨none, Transfer.default⟩

/-- `Fields::try_set`: commit a length that was parsed beforehand. -/
def trySet (self : Fields) (length : ℕ) : Except FieldError Fields :=
  if self.contentLength.isSome then .error .duplicateContentLength
  else if self.transfer.hasEncoding then .error .contentLengthWithTransferEncoding
  else .ok { self with contentLength := some length }

/-- `Fields::try_length`. -/
def tryLength (self : Fields) (value : Bytes) : Except FieldError Fields :=
  if self.contentLength.isSome then .error .duplicateContentLength
  else if self.transfer.hasEncoding then .error .contentLengthWithTransferEncoding
  else
    match parseUsize (trimOws value) with
    | .error error => .error (.invalidContentLength error)
    | .ok length => .ok { self with contentLength := some length }

/-- `Fields::try_coding`. -/
def tryCoding (self : Fields) (value : Bytes) : Except FieldError Fields :=
  if self.contentLength.isSome then .error .contentLengthWithTransferEncoding
  else
    match self.transfer.parse value with
    | .error error => .error (.invalidTransferEncoding error)
    | .ok transfer => .ok { self with transfer }

/-- `Fields::try_append`: commit a value that was parsed beforehand. -/
def tryAppend (self : Fields) (value : Transfer) : Except FieldError Fields :=
  if self.contentLength.isSome then .error .contentLengthWithTransferEncoding
  else
    match self.transfer.tryJoin value with
    | .error error => .error (.invalidTransferEncoding error)
    | .ok transfer => .ok { self with transfer }

/-- Admit one field line on its route (`http/src/field/head`). -/
def admitLine (self : Fields) : FieldLine → Except HeadError Fields
  | .contentLength .direct value => (self.tryLength value).mapError .message
  | .contentLength .scanned value =>
    match parseUsize (trimOws value) with
    | .error error => .error (.contentLength error)
    | .ok length => (self.trySet length).mapError .message
  | .transferEncoding .direct value => (self.tryCoding value).mapError .message
  | .transferEncoding .scanned value =>
    match Transfer.default.parse value with
    | .error error => .error (.transferEncoding error)
    | .ok parsed => (self.tryAppend parsed).mapError .message

/-- Admit the framing field lines of a head in order. -/
def admitAll (self : Fields) (lines : List FieldLine) : Except HeadError Fields :=
  lines.foldlM admitLine self

/-! ## What one line does -/

theorem mapError_eq_ok_iff {ε ε' α : Type} {f : ε → ε'} {x : Except ε α} {a : α} :
    x.mapError f = .ok a ↔ x = .ok a := by
  cases x <;> simp [Except.mapError]

theorem tryCoding_eq_ok_iff {self next : Fields} {value : Bytes} :
    self.tryCoding value = .ok next ↔
      self.contentLength = none ∧ next.contentLength = none ∧
        self.transfer.parse value = .ok next.transfer := by
  obtain ⟨length, transfer⟩ := self
  obtain ⟨length', transfer'⟩ := next
  cases length with
  | some length => simp [tryCoding]
  | none => cases hparse : transfer.parse value <;> simp [tryCoding, hparse, eq_comm]

theorem tryAppend_eq_ok_iff {self next : Fields} {value : Transfer} :
    self.tryAppend value = .ok next ↔
      self.contentLength = none ∧ next.contentLength = none ∧
        self.transfer.tryJoin value = .ok next.transfer := by
  obtain ⟨length, transfer⟩ := self
  obtain ⟨length', transfer'⟩ := next
  cases length with
  | some length => simp [tryAppend]
  | none => cases hjoin : transfer.tryJoin value <;> simp [tryAppend, hjoin, eq_comm]

/-- A coding line is admitted by the same states, with the same result, on both routes. -/
theorem admitLine_transferEncoding_eq_ok_iff {self next : Fields} {route : Route} {value : Bytes} :
    self.admitLine (.transferEncoding route value) = .ok next ↔ self.tryCoding value = .ok next := by
  cases route with
  | direct => exact mapError_eq_ok_iff
  | scanned =>
    have hjoin := @parse_tryJoin_eq_ok_iff self.transfer next.transfer value
    rw [tryCoding_eq_ok_iff, ← hjoin, admitLine]
    cases hparse : Transfer.default.parse value with
    | error error => simp [bind, Except.bind]
    | ok parsed =>
      simp only
      rw [mapError_eq_ok_iff, tryAppend_eq_ok_iff]
      rfl

/-- A length line is admitted only by a state that has neither a length nor a coding. -/
theorem admitLine_contentLength_eq_ok {self next : Fields} {route : Route} {value : Bytes}
    (h : self.admitLine (.contentLength route value) = .ok next) :
    self.contentLength = none ∧ self.transfer.codings = 0 ∧
      next.contentLength.isSome ∧ next.transfer = self.transfer := by
  obtain ⟨length, transfer⟩ := self
  cases route with
  | direct =>
    rw [admitLine, mapError_eq_ok_iff, tryLength] at h
    split at h
    · simp at h
    split at h
    · simp at h
    split at h
    · simp at h
    · obtain rfl : _ = next := by simpa using h
      simp_all [hasEncoding]
  | scanned =>
    rw [admitLine] at h
    split at h
    · simp at h
    rw [mapError_eq_ok_iff, trySet] at h
    split at h
    · simp at h
    split at h
    · simp at h
    · obtain rfl : _ = next := by simpa using h
      simp_all [hasEncoding]

/-! ## What a run keeps -/

/-- The accumulator against the lines it has read: a length excludes codings, there is a length
exactly when there was one length line, and the coding state is the fold of the coding lines. -/
structure Tracks (fields : Fields) (lines : List FieldLine) : Prop where
  exclusive : fields.contentLength.isSome → fields.transfer.codings = 0
  lengths : (FieldLine.lengths lines).length = fields.contentLength.toList.length
  codings : Transfer.default.parseAll (FieldLine.codings lines) = .ok fields.transfer

theorem tracks_default : Tracks default [] :=
  ⟨by simp [default], by simp [default, FieldLine.lengths], rfl⟩

theorem Tracks.admitLine {self next : Fields} {lines : List FieldLine} {line : FieldLine}
    (h : Tracks self lines) (hline : self.admitLine line = .ok next) :
    Tracks next (lines ++ [line]) := by
  cases line with
  | contentLength route value =>
    obtain ⟨hnone, hcodings, hsome, htransfer⟩ := admitLine_contentLength_eq_ok hline
    obtain ⟨length, hlength⟩ := Option.isSome_iff_exists.mp hsome
    refine ⟨fun _ => htransfer ▸ hcodings, ?_, ?_⟩
    · have := h.lengths
      simp_all [FieldLine.lengths]
    · have := h.codings
      simp_all [FieldLine.codings]
  | transferEncoding route value =>
    obtain ⟨hself, hnext, hparse⟩ :=
      tryCoding_eq_ok_iff.mp (admitLine_transferEncoding_eq_ok_iff.mp hline)
    refine ⟨by simp [hnext], ?_, ?_⟩
    · have := h.lengths
      simp_all [FieldLine.lengths]
    · have hcodings : FieldLine.codings (lines ++ [.transferEncoding route value]) =
          FieldLine.codings lines ++ [value] := by
        simp [FieldLine.codings]
      rw [hcodings, parseAll, List.foldlM_append, Except.bind_eq_ok_iff]
      exact ⟨self.transfer, h.codings, Fallible.foldlM_cons_eq_ok_iff.mpr
        ⟨next.transfer, hparse, rfl⟩⟩

theorem tracks_of_admitAll {lines : List FieldLine} {fields : Fields}
    (h : default.admitAll lines = .ok fields) : Tracks fields lines := by
  have hrun := @Fallible.foldlM_invariant _ _ _ Fields.admitLine Tracks
    (fun _ _ _ _ hinv hstep => hinv.admitLine hstep) _ _ _ _ tracks_default h
  simpa using hrun

theorem admitAll_eq_ok_iff_parseAll {self next : Fields} {values : List (Route × Bytes)}
    (hne : values ≠ []) :
    self.admitAll (values.map fun value => .transferEncoding value.1 value.2) = .ok next ↔
      self.contentLength = none ∧ next.contentLength = none ∧
        self.transfer.parseAll (values.map Prod.snd) = .ok next.transfer := by
  induction values generalizing self with
  | nil => exact absurd rfl hne
  | cons value values ih =>
    simp only [List.map_cons, admitAll, parseAll, Fallible.foldlM_cons_eq_ok_iff,
      admitLine_transferEncoding_eq_ok_iff, tryCoding_eq_ok_iff]
    by_cases hrest : values = []
    · subst hrest
      simp only [List.map_nil, List.foldlM_nil, pure, Except.pure, Except.ok.injEq]
      refine ⟨?_, ?_⟩
      · rintro ⟨mid, ⟨hself, hmid, hparse⟩, rfl⟩
        exact ⟨hself, hmid, mid.transfer, hparse, rfl⟩
      · rintro ⟨hself, hnext, mid, hparse, rfl⟩
        exact ⟨next, ⟨hself, hnext, hparse⟩, rfl⟩
    · refine ⟨?_, ?_⟩
      · rintro ⟨mid, ⟨hself, -, hparse⟩, hfold⟩
        obtain ⟨-, hnext, htail⟩ := (ih hrest).mp hfold
        exact ⟨hself, hnext, mid.transfer, hparse, htail⟩
      · rintro ⟨hself, hnext, mid, hparse, htail⟩
        refine ⟨⟨none, mid⟩, ⟨hself, rfl, hparse⟩, (ih hrest).mpr ⟨rfl, hnext, htail⟩⟩

/-! ## Framing is unambiguous -/

theorem codings_eq_nil_of_parseAll {values : List Bytes} {transfer : Transfer}
    (h : Transfer.default.parseAll values = .ok transfer) (hzero : transfer.codings = 0) :
    values = [] := by
  obtain ⟨codings, hlines⟩ := lines_of_parseAll h
  rw [parseAll_of_lines hlines] at h
  cases hlines with
  | nil => rfl
  | @cons _ first _ rest hline _ =>
    have hne : (first :: rest).flatten ≠ [] := by
      simpa using fun hnil => absurd hnil hline.ne_nil
    obtain ⟨-, -, hcount, -⟩ := (pushAll_eq_ok_iff hne).mp h
    have := List.length_pos_of_ne_nil hne
    omega

/-- However admitted coding lines read in the grammar, `chunked` is their very last coding or does
not occur. -/
theorem chunked_last_of_parseAll {values : List Bytes} {transfer : Transfer}
    {codings : List (List Coding)} (h : Transfer.default.parseAll values = .ok transfer)
    (hlines : List.Forall₂ Line values codings) :
    .chunked ∉ codings.flatten.dropLast := by
  by_cases hne : codings.flatten = []
  · simp [hne]
  · rw [parseAll_of_lines hlines] at h
    exact ((pushAll_eq_ok_iff hne).mp h).2.1

theorem count_le_one_of_not_mem_dropLast {codings : List Coding} {coding : Coding}
    (h : coding ∉ codings.dropLast) : codings.count coding ≤ 1 := by
  rcases List.eq_nil_or_concat codings with rfl | ⟨init, last, rfl⟩
  · simp
  · rw [List.concat_eq_append, List.dropLast_concat] at h
    rw [List.concat_eq_append, List.count_append, List.count_eq_zero_of_not_mem h, zero_add]
    exact List.count_le_length

/-- HTTP/1 framing is unambiguous. An admitted head has no length next to a coding and at most one
length; its coding lines are lines of the grammar, and however they read, `chunked` occurs at most
once and only as the very last coding. Folding coding lines one by one, on whichever routes, admits
exactly what the accumulator admits as their comma join, with the same state, among the lines that
do not end inside a quoted string. -/
theorem admitAll_unambiguous :
    (∀ (lines : List FieldLine) (fields : Fields), default.admitAll lines = .ok fields →
      (FieldLine.lengths lines = [] ∨ FieldLine.codings lines = []) ∧
        (FieldLine.lengths lines).length ≤ 1 ∧
        (∃ codings, List.Forall₂ Line (FieldLine.codings lines) codings) ∧
        ∀ codings, List.Forall₂ Line (FieldLine.codings lines) codings →
          codings.flatten.count .chunked ≤ 1 ∧ .chunked ∉ codings.flatten.dropLast) ∧
    ∀ (self next : Fields) (values : List (Route × Bytes)), values ≠ [] →
      (self.admitAll (values.map fun value => .transferEncoding value.1 value.2) = .ok next ↔
        self.tryCoding ([0x2c].intercalate (values.map Prod.snd)) = .ok next ∧
          ∀ value ∈ values, QuotesClosed value.2) := by
  refine ⟨fun lines fields h => ?_, fun self next values hne => ?_⟩
  · have htracks := tracks_of_admitAll h
    have hchunked := fun codings => @chunked_last_of_parseAll _ _ codings htracks.codings
    refine ⟨?_, ?_, lines_of_parseAll htracks.codings, fun codings hlines =>
      ⟨count_le_one_of_not_mem_dropLast (hchunked codings hlines), hchunked codings hlines⟩⟩
    · cases hlength : fields.contentLength with
      | none => exact .inl (by simpa [hlength] using htracks.lengths)
      | some length =>
        exact .inr (codings_eq_nil_of_parseAll htracks.codings
          (htracks.exclusive (by simp [hlength])))
    · rw [htracks.lengths]
      cases fields.contentLength <;> simp
  · rw [admitAll_eq_ok_iff_parseAll hne, tryCoding_eq_ok_iff,
      parseAll_eq_ok_iff (by simpa using hne), List.forall_mem_map]
    simp only [and_assoc]

/-- `gzip` and `chunked`, one on each route, against the line `gzip,chunked`. -/
theorem admitAll_unambiguous_gzip_chunked :
    default.tryCoding [0x67, 0x7a, 0x69, 0x70, 0x2c, 0x63, 0x68, 0x75, 0x6e, 0x6b, 0x65, 0x64] =
        .ok ⟨none, ⟨2, some .chunked, by decide, by simp⟩⟩ ∧
      (FieldLine.lengths [.transferEncoding .direct [0x67, 0x7a, 0x69, 0x70],
        .transferEncoding .scanned [0x63, 0x68, 0x75, 0x6e, 0x6b, 0x65, 0x64]]).length ≤ 1 := by
  have hfold : default.admitAll [.transferEncoding .direct [0x67, 0x7a, 0x69, 0x70],
      .transferEncoding .scanned [0x63, 0x68, 0x75, 0x6e, 0x6b, 0x65, 0x64]] =
        .ok ⟨none, ⟨2, some .chunked, by decide, by simp⟩⟩ := by
    decide +kernel
  refine ⟨?_, (admitAll_unambiguous.1 _ _ hfold).2.1⟩
  exact ((admitAll_unambiguous.2 default ⟨none, ⟨2, some .chunked, by decide, by simp⟩⟩
    [(.direct, [0x67, 0x7a, 0x69, 0x70]), (.scanned, [0x63, 0x68, 0x75, 0x6e, 0x6b, 0x65, 0x64])]
    (by simp)).mp hfold).1

/-- A quoted parameter value broken over two lines: `a;b="c` and `d"` are rejected one by one, but
their comma join `a;b="c,d"` is one coding. -/
theorem admitAll_codings_ne_join :
    ¬∀ (self next : Fields) (values : List (Route × Bytes)), values ≠ [] →
      (self.admitAll (values.map fun value => .transferEncoding value.1 value.2) = .ok next ↔
        self.tryCoding ([0x2c].intercalate (values.map Prod.snd)) = .ok next) := by
  intro h
  have hjoin : default.tryCoding [0x61, 0x3b, 0x62, 0x3d, 0x22, 0x63, 0x2c, 0x64, 0x22] =
      .ok ⟨none, ⟨1, some .other, by decide, by simp⟩⟩ := by
    decide +kernel
  have hfold := (h default ⟨none, ⟨1, some .other, by decide, by simp⟩⟩
    [(.direct, [0x61, 0x3b, 0x62, 0x3d, 0x22, 0x63]), (.direct, [0x64, 0x22])] (by simp)).mpr hjoin
  have hreject : default.admitAll [.transferEncoding .direct [0x61, 0x3b, 0x62, 0x3d, 0x22, 0x63],
      .transferEncoding .direct [0x64, 0x22]] =
        .error (.message (.invalidTransferEncoding .invalidByte)) := by
    decide +kernel
  simp only [List.map_cons, List.map_nil, hreject] at hfold
  cases hfold

end Fields

end Sark.Http
