import Sark.Http.H1.Value
import Sark.Library.Fallible

/-!
# Transfer codings

`http/src/h1/field/transfer.rs` validates the `Transfer-Encoding` field across one or more field
lines. `Transfer` is the running state; `Transfer.parse` extends it by one line and
`Transfer.tryJoin` by a value that was parsed on its own.

The abstract side is a grammar: `Line bytes codings` reads a field value as a nonempty list of
codings, and `Transfer.pushAll` is what a list of codings does to the state. The two sides meet in

* `Transfer.parse_of_line`: on every line of the grammar, `parse` computes `pushAll`;
* `Transfer.line_of_parse`: whatever `parse` accepts is a line of the grammar.

Joining lines with commas is then a question about the grammar alone. A comma joins two lines into
a line (`Line.join`), and a line can be cut at a comma that is not inside a quoted string
(`Line.cut`).
-/

namespace Sark.Http

open Value

/-- A transfer coding, as far as framing tells codings apart. The source's `framing::Transfer` is
`Option Coding`, with `None` for a message without codings. -/
inductive Coding
  | chunked
  | other
  deriving DecidableEq, Repr

/-- `field::Transfer`. The count is a `u16`; codings are counted exactly when one was seen, which
every constructor of the source maintains. -/
@[ext]
structure Transfer where
  /-- Number of codings over all lines. -/
  codings : ℕ
  /-- The final coding. -/
  last : Option Coding
  /-- The count fits `u16`. -/
  codings_lt : codings < 2 ^ 16
  /-- Codings are counted exactly when one was seen. -/
  last_eq_none_iff : last = none ↔ codings = 0
  deriving DecidableEq

namespace Transfer

/-- `Transfer::default`. -/
def default : Transfer :=
  ⟨0, none, by decide, by simp⟩

/-- `Transfer::has_encoding`. -/
def hasEncoding (self : Transfer) : Bool :=
  self.codings != 0

/-- The coding named by a token. -/
def classify (name : Bytes) : Coding :=
  -- b"chunked"
  if eqIgnoreAsciiCase name [0x63, 0x68, 0x75, 0x6e, 0x6b, 0x65, 0x64] then .chunked else .other

/-- Count `added` codings the last of which is `last`; `checked_add` on the `u16` count. -/
def count (self : Transfer) (added : ℕ) (last : Option Coding) (hadded : added ≠ 0)
    (hlast : last ≠ none) : Except Error Transfer :=
  if hlt : self.codings + added < 2 ^ 16 then
    .ok ⟨self.codings + added, last, hlt, by simp [hadded, hlast]⟩
  else .error .overflow

theorem count_eq_ok_iff {self next : Transfer} {added : ℕ} {last : Option Coding}
    {hadded : added ≠ 0} {hlast : last ≠ none} :
    self.count added last hadded hlast = .ok next ↔
      next.codings = self.codings + added ∧ next.last = last := by
  unfold count
  split
  · rw [Except.ok.injEq, Transfer.ext_iff]
    exact and_congr eq_comm eq_comm
  · rename_i hge
    refine iff_of_false (by simp) ?_
    rintro ⟨hcodings, -⟩
    exact hge (hcodings ▸ next.codings_lt)

/-- One pass of the parameter loop, after its `;`. -/
def param (value : Bytes) : Except Error Bytes :=
  match token (skipOws value) with
  | .error error => .error error
  | .ok (_, afterName) =>
    match take 0x3d (skipOws afterName) with
    | none => .error .invalidByte
    | some afterEquals =>
      match item (skipOws afterEquals) with
      | .error error => .error error
      | .ok rest => .ok (skipOws rest)

/-! ## The grammar of a field value -/

/-- One parameter, from behind its `;` up to the next delimiter. -/
inductive Param : Bytes → Prop
  | mk {w₁ name w₂ w₃ value w₄ : Bytes} :
      Ows w₁ → Token name → Ows w₂ → Ows w₃ → Item value → Ows w₄ →
      Param (w₁ ++ (name ++ (w₂ ++ 0x3d :: (w₃ ++ (value ++ w₄)))))

/-- The parameters of one coding. -/
inductive Params : Bytes → Prop
  | nil : Params []
  | cons {param rest : Bytes} : Param param → Params rest → Params (0x3b :: (param ++ rest))

/-- One list element: a coding with its parameters and the whitespace around it. `chunked` takes
no parameters. -/
inductive Element : Bytes → Coding → Prop
  | mk {w₁ name w₂ params : Bytes} :
      Ows w₁ → Token name → Ows w₂ → Params params → (classify name = .chunked → params = []) →
      Element (w₁ ++ (name ++ (w₂ ++ params))) (classify name)

/-- A `Transfer-Encoding` field value with its codings. There are no empty list elements. -/
inductive Line : Bytes → List Coding → Prop
  | last {element : Bytes} {coding : Coding} : Element element coding → Line element [coding]
  | cons {element rest : Bytes} {coding : Coding} {codings : List Coding} :
      Element element coding → Line rest codings →
      Line (element ++ 0x2c :: rest) (coding :: codings)

/-! ## Reading one element -/

theorem param_split {value rest : Bytes} (h : param value = .ok rest) :
    ∃ bytes, Param bytes ∧ value = bytes ++ rest := by
  unfold param at h
  split at h
  · simp at h
  · rename_i name afterName hname
    split at h
    · simp at h
    · rename_i afterEquals hequals
      split at h
      · simp at h
      · rename_i after hitem
        obtain rfl : skipOws after = rest := by simpa using h
        obtain ⟨w₁, hw₁, hvalue⟩ := skipOws_split value
        obtain ⟨hname, hskip⟩ := token_split hname
        obtain ⟨w₂, hw₂, hafterName⟩ := skipOws_split afterName
        obtain ⟨w₃, hw₃, hafterEquals⟩ := skipOws_split afterEquals
        obtain ⟨bytes, hbytes, hitem⟩ := item_split hitem
        obtain ⟨w₄, hw₄, hafter⟩ := skipOws_split after
        refine ⟨_, .mk hw₁ hname hw₂ hw₃ hbytes hw₄, ?_⟩
        simp only [List.append_assoc, List.cons_append]
        rw [← hafter, ← hitem, ← hafterEquals, ← take_eq_some hequals, ← hafterName, ← hskip,
          ← hvalue]

/-- What may follow a parameter: the end, another parameter or another element. -/
def Ends (rest : Bytes) : Prop :=
  rest = [] ∨ (∃ tail, rest = 0x3b :: tail) ∨ ∃ tail, rest = 0x2c :: tail

theorem Ends.stops {rest : Bytes} (h : Ends rest) (p : UInt8 → Bool) (hsemi : p 0x3b = false)
    (hcomma : p 0x2c = false) : Stops p rest := by
  rcases h with rfl | ⟨tail, rfl⟩ | ⟨tail, rfl⟩
  · simp
  · simpa using hsemi
  · simpa using hcomma

theorem param_append {bytes rest : Bytes} (h : Param bytes) (hrest : Ends rest) :
    param (bytes ++ rest) = .ok rest := by
  obtain ⟨hw₁, hname, hw₂, hw₃, hvalue, hw₄⟩ := h
  rename_i w₁ name w₂ w₃ value w₄
  have hname_stops : Stops isNameByte (w₂ ++ 0x3d :: (w₃ ++ (value ++ (w₄ ++ rest)))) :=
    hw₂.stops_append (fun _ => isNameByte_of_isOws) (by rw [stops_cons]; decide)
  have hvalue_stops : Stops isNameByte (w₄ ++ rest) :=
    hw₄.stops_append (fun _ => isNameByte_of_isOws) (hrest.stops _ (by decide) (by decide))
  simp only [List.append_assoc, List.cons_append]
  unfold param
  rw [skipOws_append hw₁ (hname.stops_isOws.append_left _ hname.1),
    token_append hname hname_stops]
  simp only
  rw [skipOws_append hw₂ (by rw [stops_cons]; decide), take_cons_self]
  simp only
  rw [skipOws_append hw₃ (hvalue.stops_isOws.append_left _ hvalue.ne_nil),
    item_append hvalue hvalue_stops]
  simp only
  rw [skipOws_append hw₄ (hrest.stops _ (by decide) (by decide))]

theorem param_length_le {value rest : Bytes} (h : param value = .ok rest) :
    rest.length ≤ value.length := by
  obtain ⟨bytes, -, rfl⟩ := param_split h
  simp

/-- The `while parser.take(b';')` loop: reads the parameters of one coding and tells whether there
was one. -/
def params (seen : Bool) (value : Bytes) : Except Error (Bool × Bytes) :=
  match _hsemi : take 0x3b value with
  | none => .ok (seen, value)
  | some after =>
    match _hparam : param after with
    | .error error => .error error
    | .ok rest => params true rest
termination_by value.length
decreasing_by
  have hlength := congrArg List.length (take_eq_some _hsemi)
  have hle := param_length_le _hparam
  simp only [List.length_cons] at hlength
  omega

/-- `params` consumes the parameters of one coding and reports whether there were any. -/
theorem params_split {seen found : Bool} {value rest : Bytes}
    (h : params seen value = .ok (found, rest)) :
    ∃ bytes, Params bytes ∧ value = bytes ++ rest ∧ found = (seen || !bytes.isEmpty) := by
  fun_induction params seen value with
  | case1 seen value hsemi =>
    simp only [Except.ok.injEq, Prod.mk.injEq] at h
    exact ⟨[], .nil, by simp [h.2], by simp [h.1]⟩
  | case2 => simp at h
  | case3 seen value after hsemi tail hparam ih =>
    obtain ⟨bytes, hbytes, htail, hfound⟩ := ih h
    obtain ⟨first, hfirst, rfl⟩ := param_split hparam
    refine ⟨0x3b :: (first ++ bytes), .cons hfirst hbytes, ?_, ?_⟩
    · rw [take_eq_some hsemi, htail]
      simp
    · simpa using hfound

/-- `params` reads the parameters of one coding up to the end or the next element. -/
theorem params_append {bytes rest : Bytes} (h : Params bytes)
    (hrest : rest = [] ∨ ∃ tail, rest = 0x2c :: tail) (seen : Bool) :
    params seen (bytes ++ rest) = .ok (seen || !bytes.isEmpty, rest) := by
  induction h generalizing seen with
  | nil =>
    have hsemi : take 0x3b rest = none := by
      rcases hrest with rfl | ⟨tail, rfl⟩ <;> simp [take]
    rw [List.nil_append, params.eq_def, hsemi]
    simp
  | @cons first bytes hfirst hbytes ih =>
    have hends : Ends (bytes ++ rest) := by
      cases hbytes with
      | nil =>
        rcases hrest with h | h
        · exact .inl h
        · exact .inr (.inr h)
      | cons => exact .inr (.inl ⟨_, rfl⟩)
    rw [List.cons_append, List.append_assoc, params.eq_def, take_cons_self]
    simp only
    rw [param_append hfirst hends]
    simp [ih true]

/-- The `loop` of `Transfer::parse`, entered with the whitespace in front of a coding skipped. -/
def parseLoop (self : Transfer) (value : Bytes) : Except Error Transfer :=
  if self.last = some .chunked then .error .invalidOrdering
  else
    match _hname : token value with
    | .error error => .error error
    | .ok (name, afterName) =>
      match _hparams : params false (skipOws afterName) with
      | .error error => .error error
      | .ok (param, rest) =>
        if classify name = .chunked ∧ param then .error .invalidByte
        else
          match self.count 1 (some (classify name)) one_ne_zero (by simp) with
          | .error error => .error error
          | .ok self =>
            if rest.isEmpty then .ok self
            else
              match _hcomma : take 0x2c rest with
              | none => .error .invalidByte
              | some afterComma =>
                if (skipOws afterComma).isEmpty then .error .empty
                else parseLoop self (skipOws afterComma)
termination_by value.length
decreasing_by
  obtain ⟨-, hvalue⟩ := token_split _hname
  obtain ⟨bytes, -, hafterName, -⟩ := params_split _hparams
  have h₁ := congrArg List.length hvalue
  have h₂ := congrArg List.length hafterName
  have h₃ := congrArg List.length (take_eq_some _hcomma)
  have h₄ := skipOws_length_le afterName
  have h₅ := skipOws_length_le afterComma
  simp only [List.length_cons, List.length_append] at h₁ h₂ h₃
  omega

/-- `Transfer::parse`: extend the state by one field line. -/
def parse (self : Transfer) (value : Bytes) : Except Error Transfer :=
  if (skipOws value).isEmpty then .error .empty
  else parseLoop self (skipOws value)

/-- `Transfer::try_join`: extend the state by a value parsed on its own. -/
def tryJoin (self value : Transfer) : Except Error Transfer :=
  if h : value.codings = 0 then .error .empty
  else if self.last = some .chunked then .error .invalidOrdering
  else self.count value.codings value.last h (mt value.last_eq_none_iff.mp h)

/-! ## What a list of codings does to the state -/

/-- Admit one more coding. -/
def push (self : Transfer) (coding : Coding) : Except Error Transfer :=
  if self.last = some .chunked then .error .invalidOrdering
  else self.count 1 (some coding) one_ne_zero (by simp)

theorem push_eq_ok_iff {self next : Transfer} {coding : Coding} :
    push self coding = .ok next ↔
      self.last ≠ some .chunked ∧ next.codings = self.codings + 1 ∧ next.last = some coding := by
  unfold push
  split
  · simp_all
  · rw [count_eq_ok_iff]
    simp_all

/-- Admit a list of codings in order. -/
def pushAll (self : Transfer) (codings : List Coding) : Except Error Transfer :=
  codings.foldlM push self

theorem pushAll_cons (self : Transfer) (coding : Coding) (codings : List Coding) :
    pushAll self (coding :: codings) = push self coding >>= fun next => pushAll next codings := by
  simp [pushAll]

theorem pushAll_append (self : Transfer) (left right : List Coding) :
    pushAll self (left ++ right) = pushAll self left >>= fun next => pushAll next right := by
  simp [pushAll]

/-- A list of codings is admitted exactly when no coding follows `chunked` and the count stays
below `2 ^ 16`. -/
theorem pushAll_eq_ok_iff {self next : Transfer} {codings : List Coding} (hne : codings ≠ []) :
    pushAll self codings = .ok next ↔
      self.last ≠ some .chunked ∧ .chunked ∉ codings.dropLast ∧
        next.codings = self.codings + codings.length ∧ next.last = codings.getLast? := by
  induction codings generalizing self with
  | nil => exact absurd rfl hne
  | cons coding codings ih =>
    rw [pushAll_cons]
    cases hpush : push self coding with
    | error error =>
      -- the first coding already fails: either `chunked` came before it or the count is full
      refine iff_of_false (by simp [bind, Except.bind]) ?_
      rintro ⟨hlast, -, hcodings, -⟩
      have hlt : self.codings + 1 < 2 ^ 16 := by
        have := next.codings_lt
        simp only [List.length_cons] at hcodings
        omega
      rw [push, if_neg hlast, count, dif_pos hlt] at hpush
      simp at hpush
    | ok mid =>
      obtain ⟨hlast, hcodings, hmid⟩ := push_eq_ok_iff.mp hpush
      simp only [bind, Except.bind]
      by_cases htail : codings = []
      · subst htail
        simp only [pushAll, List.foldlM_nil, pure, Except.pure, Except.ok.injEq]
        simp [Transfer.ext_iff, hlast, hcodings, hmid, eq_comm]
      · rw [ih htail, hmid]
        obtain ⟨second, codings, rfl⟩ := List.exists_cons_of_ne_nil htail
        simp only [List.dropLast_cons_cons, List.mem_cons, List.getLast?_cons_cons, hcodings,
          List.length_cons, ne_eq, Option.some.injEq, not_or]
        refine ⟨?_, ?_⟩
        · rintro ⟨h₁, h₂, h₃, h₄⟩
          exact ⟨hlast, ⟨Ne.symm h₁, h₂⟩, by omega, h₄⟩
        · rintro ⟨-, ⟨h₁, h₂⟩, h₃, h₄⟩
          exact ⟨Ne.symm h₁, h₂, by omega, h₄⟩

theorem tryJoin_eq_ok_iff {self value next : Transfer} {codings : List Coding}
    (hne : codings ≠ []) (hvalue : pushAll default codings = .ok value) :
    tryJoin self value = .ok next ↔ pushAll self codings = .ok next := by
  obtain ⟨-, hchunked, hcodings, hlast⟩ := (pushAll_eq_ok_iff hne).mp hvalue
  have hpos : value.codings ≠ 0 := by
    have := List.length_pos_of_ne_nil hne
    omega
  rw [pushAll_eq_ok_iff hne, tryJoin, dif_neg hpos]
  split
  · simp_all
  · rename_i hself
    rw [count_eq_ok_iff, hlast, hcodings]
    simp [hself, hchunked, default]

/-! ## The parser computes the grammar -/

/-- One element of the loop: the parser reads it and admits its coding. -/
theorem parseLoop_append {element rest : Bytes} {coding : Coding} (self : Transfer)
    (h : Element element coding) (hrest : rest = [] ∨ ∃ tail, rest = 0x2c :: tail) :
    parseLoop self (skipOws (element ++ rest)) =
      push self coding >>= fun next =>
        if rest.isEmpty then .ok next else parse next rest.tail := by
  obtain ⟨hw₁, hname, hw₂, hparams, hchunked⟩ := h
  rename_i w₁ name w₂ bytes
  have hends : Ends (bytes ++ rest) := by
    cases hparams with
    | nil =>
      rcases hrest with h | h
      · exact .inl h
      · exact .inr (.inr h)
    | cons => exact .inr (.inl ⟨_, rfl⟩)
  have hstops : Stops isNameByte (w₂ ++ (bytes ++ rest)) :=
    hw₂.stops_append (fun _ => isNameByte_of_isOws) (hends.stops _ (by decide) (by decide))
  have hnot : ¬(classify name = .chunked ∧ (false || !bytes.isEmpty) = true) := by
    rintro ⟨hclass, hsome⟩
    simp [hchunked hclass] at hsome
  simp only [List.append_assoc]
  rw [skipOws_append hw₁ (hname.stops_isOws.append_left _ hname.1), parseLoop, push]
  split
  · rfl
  · rw [token_append hname hstops]
    simp only
    rw [skipOws_append hw₂ (hends.stops _ (by decide) (by decide)), params_append hparams hrest]
    simp only
    rw [if_neg hnot]
    cases self.count 1 (some (classify name)) one_ne_zero (by simp) with
    | error error => rfl
    | ok next =>
      rcases hrest with rfl | ⟨tail, rfl⟩
      · simp [bind, Except.bind]
      · simp only [bind, Except.bind, parse, List.isEmpty_cons, Bool.false_eq_true, if_false,
          List.tail_cons]
        rw [take_cons_self]
        rfl

theorem Element.skipOws_ne_nil {element : Bytes} {coding : Coding}
    (h : Element element coding) (rest : Bytes) : skipOws (element ++ rest) ≠ [] := by
  obtain ⟨hw₁, hname, -, -, -⟩ := h
  simp only [List.append_assoc]
  rw [skipOws_append hw₁ (hname.stops_isOws.append_left _ hname.1)]
  simp [hname.1]

theorem parse_of_line {bytes : Bytes} {codings : List Coding} (h : Line bytes codings)
    (self : Transfer) : parse self bytes = pushAll self codings := by
  induction h generalizing self with
  | @last element coding helement =>
    have hloop := parseLoop_append self helement (.inl rfl)
    rw [List.append_nil] at hloop
    rw [parse, if_neg (by simpa using helement.skipOws_ne_nil []), hloop, pushAll_cons]
    rfl
  | @cons element rest coding codings helement _ ih =>
    rw [parse, if_neg (by simpa using helement.skipOws_ne_nil _), pushAll_cons,
      parseLoop_append self helement (.inr ⟨rest, rfl⟩)]
    simp only [List.isEmpty_cons, Bool.false_eq_true, if_false, List.tail_cons, ih]

theorem element_of_read {value name afterName rest ows : Bytes} {found : Bool} (hows : Ows ows)
    (hname : token value = .ok (name, afterName))
    (hparams : params false (skipOws afterName) = .ok (found, rest))
    (hnot : ¬(classify name = .chunked ∧ found = true)) :
    ∃ element, Element element (classify name) ∧ ows ++ value = element ++ rest := by
  obtain ⟨htoken, rfl⟩ := token_split hname
  obtain ⟨w, hw, hafterName⟩ := skipOws_split afterName
  obtain ⟨bytes, hbytes, hskip, hfound⟩ := params_split hparams
  refine ⟨_, .mk hows htoken hw hbytes ?_, ?_⟩
  · intro hclass
    have hfalse : found = false := by
      by_contra hne
      exact hnot ⟨hclass, by simpa using hne⟩
    simpa [hfalse] using hfound
  · rw [hafterName, hskip]
    simp only [List.append_assoc]

/-- The loop form of `line_of_parse`; `ows` is the whitespace skipped before the loop. -/
theorem line_of_parseLoop {self next : Transfer} {value : Bytes}
    (h : parseLoop self value = .ok next) {ows : Bytes} (hows : Ows ows) :
    ∃ codings, Line (ows ++ value) codings := by
  fun_induction parseLoop self value generalizing ows with
  | case1 | case2 | case3 | case4 | case5 | case7 | case8 => simp at h
  | case6 self value _ name afterName hname found rest hparams hnot _ _ hempty =>
    obtain ⟨element, helement, hsplit⟩ := element_of_read hows hname hparams hnot
    rw [hsplit, List.isEmpty_iff.mp hempty, List.append_nil]
    exact ⟨_, .last helement⟩
  | case9 self value _ name afterName hname found rest hparams hnot _ _ _ afterComma hcomma _ ih =>
    obtain ⟨element, helement, hsplit⟩ := element_of_read hows hname hparams hnot
    obtain ⟨w, hw, hafter⟩ := skipOws_split afterComma
    obtain ⟨codings, hline⟩ := ih h hw
    rw [hsplit, take_eq_some hcomma, hafter]
    exact ⟨_, .cons helement hline⟩

theorem line_of_parse {self next : Transfer} {bytes : Bytes} (h : parse self bytes = .ok next) :
    ∃ codings, Line bytes codings := by
  unfold parse at h
  split at h
  · simp at h
  · obtain ⟨ows, hows, hbytes⟩ := skipOws_split bytes
    rw [hbytes]
    exact line_of_parseLoop h hows

theorem parse_eq_ok_iff {self next : Transfer} {bytes : Bytes} :
    parse self bytes = .ok next ↔
      ∃ codings, Line bytes codings ∧ pushAll self codings = .ok next := by
  refine ⟨fun h => ?_, ?_⟩
  · obtain ⟨codings, hline⟩ := line_of_parse h
    exact ⟨codings, hline, parse_of_line hline self ▸ h⟩
  · rintro ⟨codings, hline, hpush⟩
    rw [parse_of_line hline, hpush]

/-! ## Commas between lines and commas inside quoted strings -/

/-- A comma joins two lines into one. -/
theorem Line.join {left right : Bytes} {codings codings' : List Coding} (h : Line left codings)
    (h' : Line right codings') : Line (left ++ 0x2c :: right) (codings ++ codings') := by
  induction h with
  | last helement => exact .cons helement h'
  | cons helement _ ih =>
    rw [List.append_assoc, List.cons_append]
    exact .cons helement ih

theorem Line.ne_nil {bytes : Bytes} {codings : List Coding} (h : Line bytes codings) :
    codings ≠ [] := by
  cases h <;> simp

/-- Where a left-to-right reading of the quotes stands. -/
inductive Quoting
  | bare
  | quoted
  | escaped
  deriving DecidableEq, Repr

/-- Read one byte of the quoting structure: a quote toggles, and inside quotes a backslash takes
the next byte with it. -/
def Quoting.step : Quoting → UInt8 → Quoting
  | .bare, byte => if byte = 0x22 then .quoted else .bare
  | .quoted, byte => if byte = 0x22 then .bare else if byte = 0x5c then .escaped else .quoted
  | .escaped, _ => .quoted

/-- Read a run of bytes. -/
def Quoting.run (self : Quoting) (bytes : Bytes) : Quoting :=
  bytes.foldl Quoting.step self

@[simp]
theorem Quoting.run_append (self : Quoting) (left right : Bytes) :
    self.run (left ++ right) = (self.run left).run right :=
  List.foldl_append

/-- The value does not end inside a quoted string. -/
def QuotesClosed (bytes : Bytes) : Prop :=
  Quoting.run .bare bytes = .bare

instance (bytes : Bytes) : Decidable (QuotesClosed bytes) :=
  inferInstanceAs (Decidable (_ = _))

/-- Reading `bytes` from `self` passes no comma outside quotes and ends outside quotes. -/
inductive Unbroken : Quoting → Bytes → Prop
  | nil : Unbroken .bare []
  | cons {self : Quoting} {byte : UInt8} {rest : Bytes} :
      ¬(self = .bare ∧ byte = 0x2c) → Unbroken (self.step byte) rest →
      Unbroken self (byte :: rest)

theorem Unbroken.run {self : Quoting} {bytes : Bytes} (h : Unbroken self bytes) :
    Quoting.run self bytes = .bare := by
  induction h with
  | nil => rfl
  | cons _ _ ih => exact ih

theorem Unbroken.append {self : Quoting} {left right : Bytes} (h : Unbroken self left)
    (h' : Unbroken .bare right) : Unbroken self (left ++ right) := by
  induction h with
  | nil => exact h'
  | cons hcomma _ ih => exact .cons hcomma ih

theorem Unbroken.no_comma {self : Quoting} {left right : Bytes}
    (h : Unbroken self (left ++ 0x2c :: right)) : Quoting.run self left ≠ .bare := by
  induction left generalizing self with
  | nil =>
    cases h with
    | cons hcomma _ => exact fun hself => hcomma ⟨hself, rfl⟩
  | cons byte left ih =>
    cases h with
    | cons _ hrest => exact ih hrest

/-- Bytes that are neither quotes nor commas do not touch the quoting structure. -/
theorem unbroken_of_plain {bytes : Bytes} (h : ∀ byte ∈ bytes, byte ≠ 0x22 ∧ byte ≠ 0x2c) :
    Unbroken .bare bytes := by
  induction bytes with
  | nil => exact .nil
  | cons byte bytes ih =>
    obtain ⟨hquote, hcomma⟩ := h byte List.mem_cons_self
    refine .cons (fun hboth => hcomma hboth.2) ?_
    rw [Quoting.step, if_neg hquote]
    exact ih fun byte hbyte => h byte (List.mem_cons_of_mem _ hbyte)

theorem unbroken_of_ows {bytes : Bytes} (h : Ows bytes) : Unbroken .bare bytes := by
  refine unbroken_of_plain fun byte hbyte => ?_
  have := h byte hbyte
  constructor <;> rintro rfl <;> simp [isOws] at this

theorem unbroken_of_token {bytes : Bytes} (h : Token bytes) : Unbroken .bare bytes := by
  refine unbroken_of_plain fun byte hbyte => ?_
  have := h.2 byte hbyte
  constructor <;> rintro rfl <;> exact absurd this (by decide)

theorem unbroken_of_quotedTail {bytes : Bytes} (h : QuotedTail bytes) :
    Unbroken .quoted bytes := by
  induction h with
  | close => exact .cons (by simp) .nil
  | @text byte rest htext _ ih =>
    have hquote : byte ≠ 0x22 := by rintro rfl; simp [isQuotedText] at htext
    have hslash : byte ≠ 0x5c := by rintro rfl; simp [isQuotedText] at htext
    refine .cons (by simp) ?_
    rwa [Quoting.step, if_neg hquote, if_neg hslash]
  | pair _ _ ih => exact .cons (by simp) (.cons (by simp [Quoting.step]) ih)

theorem unbroken_of_item {bytes : Bytes} (h : Item bytes) : Unbroken .bare bytes := by
  cases h with
  | token h => exact unbroken_of_token h
  | quoted h => exact .cons (by simp) (unbroken_of_quotedTail h)

theorem unbroken_of_params {bytes : Bytes} (h : Params bytes) : Unbroken .bare bytes := by
  induction h with
  | nil => exact .nil
  | cons hparam _ ih =>
    obtain ⟨hw₁, hname, hw₂, hw₃, hvalue, hw₄⟩ := hparam
    refine .cons (by simp) (.append ?_ ih)
    refine .append (unbroken_of_ows hw₁) (.append (unbroken_of_token hname) ?_)
    refine .append (unbroken_of_ows hw₂) (.cons (by simp) (.append (unbroken_of_ows hw₃) ?_))
    exact .append (unbroken_of_item hvalue) (unbroken_of_ows hw₄)

theorem unbroken_of_element {bytes : Bytes} {coding : Coding} (h : Element bytes coding) :
    Unbroken .bare bytes := by
  obtain ⟨hw₁, hname, hw₂, hparams, -⟩ := h
  refine .append (unbroken_of_ows hw₁) (.append (unbroken_of_token hname) ?_)
  exact .append (unbroken_of_ows hw₂) (unbroken_of_params hparams)

theorem Line.quotesClosed {bytes : Bytes} {codings : List Coding} (h : Line bytes codings) :
    QuotesClosed bytes := by
  induction h with
  | last helement => exact (unbroken_of_element helement).run
  | cons helement _ ih =>
    rw [QuotesClosed, Quoting.run_append, (unbroken_of_element helement).run]
    exact ih

/-- A line can be cut at every comma that stands outside its quoted strings. -/
theorem Line.cut {bytes left right : Bytes} {codings : List Coding} (h : Line bytes codings)
    (hbytes : bytes = left ++ 0x2c :: right) (hclosed : QuotesClosed left) :
    ∃ codings₁ codings₂, Line left codings₁ ∧ Line right codings₂ ∧
      codings = codings₁ ++ codings₂ := by
  induction h generalizing left with
  | last helement =>
    subst hbytes
    exact absurd hclosed (unbroken_of_element helement).no_comma
  | @cons element rest coding codings helement hline ih =>
    have hunbroken := unbroken_of_element helement
    rcases List.append_eq_append_iff.mp hbytes with ⟨tail, rfl, htail⟩ | ⟨tail, rfl, htail⟩
    · -- the cut is at the comma behind this element or further right
      cases tail with
      | nil =>
        obtain rfl : rest = right := by simpa using htail
        exact ⟨[coding], codings, by simpa using Line.last helement, hline, rfl⟩
      | cons comma tail =>
        obtain ⟨rfl, rfl⟩ : comma = 0x2c ∧ rest = tail ++ 0x2c :: right := by
          simpa [eq_comm] using htail
        have htail : QuotesClosed tail := by
          rw [QuotesClosed, Quoting.run_append, hunbroken.run] at hclosed
          exact hclosed
        obtain ⟨codings₁, codings₂, h₁, h₂, rfl⟩ := ih rfl htail
        exact ⟨coding :: codings₁, codings₂, .cons helement h₁, h₂, rfl⟩
    · -- a cut inside this element would be at a bare comma
      cases tail with
      | nil =>
        obtain rfl : right = rest := by simpa using htail
        rw [List.append_nil] at helement
        exact ⟨[coding], codings, .last helement, hline, rfl⟩
      | cons comma tail =>
        obtain rfl : comma = 0x2c := by
          simp only [List.cons_append, List.cons.injEq] at htail
          exact htail.1.symm
        exact absurd hclosed hunbroken.no_comma

/-! ## Several lines -/

/-- Extend the state by several field lines in order. -/
def parseAll (self : Transfer) (values : List Bytes) : Except Error Transfer :=
  values.foldlM parse self

theorem parseAll_of_lines {values : List Bytes} {codings : List (List Coding)}
    (h : List.Forall₂ Line values codings) (self : Transfer) :
    parseAll self values = pushAll self codings.flatten := by
  induction h generalizing self with
  | nil => rfl
  | cons hline _ ih =>
    rw [List.flatten_cons, pushAll_append, parseAll, List.foldlM_cons, parse_of_line hline]
    exact bind_congr fun next => ih next

theorem lines_of_parseAll {self next : Transfer} {values : List Bytes}
    (h : parseAll self values = .ok next) :
    ∃ codings, List.Forall₂ Line values codings := by
  induction values generalizing self with
  | nil => exact ⟨[], .nil⟩
  | cons value values ih =>
    obtain ⟨mid, hparse, hrest⟩ := Fallible.foldlM_cons_eq_ok_iff.mp h
    obtain ⟨codings, hline⟩ := line_of_parse hparse
    obtain ⟨tail, hlines⟩ := ih hrest
    exact ⟨codings :: tail, .cons hline hlines⟩

/-- Folding lines one by one accepts the same lines, with the same state, as parsing their comma
join, provided no line ends inside a quoted string; and it accepts nothing else. -/
theorem parseAll_eq_ok_iff {self next : Transfer} {values : List Bytes} (hne : values ≠ []) :
    parseAll self values = .ok next ↔
      parse self ([0x2c].intercalate values) = .ok next ∧ ∀ value ∈ values, QuotesClosed value := by
  induction values generalizing self with
  | nil => exact absurd rfl hne
  | cons value values ih =>
    cases values with
    | nil =>
      have hfold : parseAll self [value] = parse self value := by
        simp [parseAll]
      rw [hfold, List.intercalate_singleton]
      refine ⟨fun h => ⟨h, ?_⟩, And.left⟩
      obtain ⟨codings, hline⟩ := line_of_parse h
      simpa using hline.quotesClosed
    | cons second values =>
      have hjoin : [0x2c].intercalate (value :: second :: values) =
          value ++ 0x2c :: [0x2c].intercalate (second :: values) := by
        simp [List.intercalate, List.intersperse]
      rw [hjoin]
      refine ⟨fun h => ?_, ?_⟩
      · obtain ⟨mid, hparse, hfold⟩ := Fallible.foldlM_cons_eq_ok_iff.mp h
        obtain ⟨hrest, hclosed⟩ := (ih (by simp)).mp hfold
        obtain ⟨codings₁, hline₁, hpush₁⟩ := parse_eq_ok_iff.mp hparse
        obtain ⟨codings₂, hline₂, hpush₂⟩ := parse_eq_ok_iff.mp hrest
        refine ⟨parse_eq_ok_iff.mpr ⟨_, hline₁.join hline₂, ?_⟩, ?_⟩
        · rw [pushAll_append, hpush₁]
          exact hpush₂
        · simpa [hline₁.quotesClosed] using hclosed
      · rintro ⟨hparse, hclosed⟩
        obtain ⟨codings, hline, hpush⟩ := parse_eq_ok_iff.mp hparse
        obtain ⟨codings₁, codings₂, hline₁, hline₂, rfl⟩ :=
          hline.cut rfl (hclosed value List.mem_cons_self)
        rw [pushAll_append] at hpush
        obtain ⟨mid, hpush₁, hpush₂⟩ := Except.bind_eq_ok_iff.mp hpush
        refine Fallible.foldlM_cons_eq_ok_iff.mpr
          ⟨mid, parse_eq_ok_iff.mpr ⟨_, hline₁, hpush₁⟩, ?_⟩
        refine (ih (by simp)).mpr ⟨parse_eq_ok_iff.mpr ⟨_, hline₂, hpush₂⟩, ?_⟩
        exact fun value hvalue => hclosed value (List.mem_cons_of_mem _ hvalue)

theorem parse_tryJoin_eq_ok_iff {self next : Transfer} {value : Bytes} :
    (parse default value >>= tryJoin self) = .ok next ↔ parse self value = .ok next := by
  refine ⟨fun h => ?_, fun h => ?_⟩
  · obtain ⟨parsed, hparse, hjoin⟩ := Except.bind_eq_ok_iff.mp h
    obtain ⟨codings, hline, hpush⟩ := parse_eq_ok_iff.mp hparse
    rw [parse_of_line hline]
    exact (tryJoin_eq_ok_iff hline.ne_nil hpush).mp hjoin
  · obtain ⟨codings, hline, hpush⟩ := parse_eq_ok_iff.mp h
    -- the codings fit behind those already counted, so they fit on their own
    obtain ⟨-, hchunked, hcodings, -⟩ := (pushAll_eq_ok_iff hline.ne_nil).mp hpush
    have hlt := next.codings_lt
    have hpos := List.length_pos_of_ne_nil hline.ne_nil
    let parsed : Transfer := ⟨codings.length, codings.getLast?, by omega, by
      simp [hline.ne_nil]⟩
    have hparsed : pushAll default codings = .ok parsed := by
      refine (pushAll_eq_ok_iff hline.ne_nil).mpr ⟨by simp [default], hchunked, ?_, rfl⟩
      simp [default, parsed]
    rw [parse_of_line hline, hparsed]
    exact (tryJoin_eq_ok_iff hline.ne_nil hparsed).mpr hpush

end Transfer

end Sark.Http
