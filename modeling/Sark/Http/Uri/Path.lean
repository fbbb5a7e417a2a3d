import Sark.Http.H1.Value
import Sark.Library.Fallible
import Sark.Library.Swar

/-!
# Path and query

The scanner of a path with its query (`http/src/uri/path.rs`). It looks for the bytes that are not
plain path bytes in lanes of sixteen, and decides each of them: an escape, the question mark in
front of the query, or, where only a prefix is scanned, the space behind the target.

* `Scan.next_eq`: the lanes find the first byte that is not plain.
* `Scan.run_eq`: the scanner is the walk over the bytes one by one.
* `Scan.complete_iff`: the texts that are accepted as a whole.
* `Scan.prefixPlan_iff`: a text in front of a space is accepted exactly if it is as a whole.
-/

namespace Sark.Uri

/-! ## The scanner -/

/-- `path::Error`. -/
inductive PathError
  | byte (place : ℕ) (byte : UInt8)
  | escape (place : ℕ) (first second : Option UInt8)
  deriving DecidableEq, Repr

/-- `path::Context`. -/
inductive Context
  | path
  | query
  deriving DecidableEq, Repr

/-- `path::At`: where the question mark of the query is. -/
inductive At
  | path
  | query (place : ℕ)
  deriving DecidableEq, Repr

/-- `path::Plan`. -/
structure Plan where
  stop : ℕ
  query : At
  deriving DecidableEq, Repr

/-- `Plan::path_end`. -/
def Plan.pathEnd (self : Plan) : ℕ :=
  match self.query with
  | .path => self.stop
  | .query place => place

/-- `path::Cursor`. -/
structure Cursor where
  place : ℕ
  query : At
  deriving DecidableEq, Repr

/-- `Cursor::context`. -/
def At.context : At → Context
  | .path => .path
  | .query _ => .query

/-- `path::Stage`. -/
inductive Stage
  | found (plan : Plan)
  | exhausted (cursor : Cursor)
  deriving DecidableEq, Repr

/-- `path::Progress`. -/
inductive Progress
  | special (place : ℕ)
  | tail (place : ℕ)
  | done
  deriving DecidableEq, Repr

/-- `path::Outcome`. -/
inductive Outcome
  | complete (plan : Plan)
  | incomplete
  | invalid (error : PathError)
  deriving DecidableEq, Repr

/-- `u8::is_ascii_hexdigit`. -/
def isHexDigit (byte : UInt8) : Bool :=
  (0x30 ≤ byte && byte ≤ 0x39) || (0x41 ≤ byte && byte ≤ 0x46) || (0x61 ≤ byte && byte ≤ 0x66)

/-- `u8::is_ascii_alphabetic`. -/
def isAlphabetic (byte : UInt8) : Bool :=
  (0x41 ≤ byte && byte ≤ 0x5a) || (0x61 ≤ byte && byte ≤ 0x7a)

namespace Scan

/-- `Scan::is_path`: the range test wraps around below its first byte. -/
def isPath (context : Context) (byte : UInt8) : Bool :=
  isAlphabetic byte || byte - 0x26 ≤ 0x3b - 0x26 || byte == 0x21 || byte == 0x24 || byte == 0x3d ||
    byte == 0x40 || byte == 0x5f || byte == 0x7e || (context = .query && byte == 0x3f)

/-- `Scan::mask`: the lanes of the bytes that are not plain. -/
def mask (context : Context) (chunk : Bytes) : ℕ :=
  Swar.marks (fun byte => !isPath context byte) chunk

/-- `Scan::first`. -/
def first (bits : ℕ) : Option ℕ :=
  if bits ≠ 0 then some (Swar.trailingZeros bits / 8) else none

/-- Lanes of sixteen bytes, one after the other. -/
def locateLanes (context : Context) : ℕ → ℕ → Bytes → Option ℕ
  | 0, _, _ => none
  | lanes + 1, index, input =>
    match first (mask context (input.take 16)) with
    | some offset => some (index + offset)
    | none => locateLanes context lanes (index + 16) (input.drop 16)

/-- Groups of four lanes, whose masks are joined before they are looked at one by one. -/
def locateGroups (context : Context) : ℕ → ℕ → Bytes → Option ℕ
  | 0, _, _ => none
  | groups + 1, index, input =>
    let joint := mask context (input.take 16) ||| mask context ((input.drop 16).take 16) |||
      mask context ((input.drop 32).take 16) ||| mask context ((input.drop 48).take 16)
    match if joint ≠ 0 then locateLanes context 4 index input else none with
    | some place => some place
    | none => locateGroups context groups (index + 64) (input.drop 64)

/-- `Scan::locate`. -/
def locate (bytes : Bytes) (start : ℕ) (context : Context) : Progress :=
  if bytes.length < start then .done
  else
    let input := bytes.drop start
    let lanes := input.length / 16
    if lanes = 0 then .tail start
    else
      match locateLanes context 1 start input with
      | some place => .special place
      | none =>
        let groups := (lanes - 1) / 4
        match locateGroups context groups (start + 16) (input.drop 16) with
        | some place => .special place
        | none =>
          let behind := 16 + groups * 64
          match locateLanes context ((lanes - 1) % 4) (start + behind) (input.drop behind) with
          | some place => .special place
          | none => if input.length % 16 = 0 then .done else .tail (start + lanes * 16)

/-- The next byte that is not plain: `run` looks for it in the tail when the lanes have none. -/
def next (bytes : Bytes) (start : ℕ) (context : Context) : Option ℕ :=
  match locate bytes start context with
  | .special place => some place
  | .tail place =>
    ((bytes.drop place).findIdx? fun byte => !isPath context byte).map (place + ·)
  | .done => none

/-! ### The lanes -/

section Lanes

variable {context : Context} {index lanes groups start : ℕ} {input bytes : Bytes}

theorem first_mask (chunk : Bytes) :
    first (mask context chunk) = chunk.findIdx? fun byte => !isPath context byte := by
  rw [first, mask]
  split
  next h => exact (Swar.trailingZeros_marks h).symm
  next h =>
    rw [not_not, Swar.marks_eq_zero_iff] at h
    exact (List.findIdx?_eq_none_iff.mpr h).symm

theorem locateLanes_eq (h : lanes * 16 ≤ input.length) :
    locateLanes context lanes index input =
      ((input.take (lanes * 16)).findIdx? fun byte => !isPath context byte).map (index + ·) := by
  induction lanes generalizing index input with
  | zero => simp [locateLanes]
  | succ lanes ih =>
    have hsplit : input.take ((lanes + 1) * 16) =
        input.take 16 ++ (input.drop 16).take (lanes * 16) := by
      rw [← List.take_add]
      congr 1
      omega
    have hlength : (input.take 16).length = 16 := by
      rw [List.length_take]
      omega
    rw [locateLanes, first_mask, hsplit, List.findIdx?_append, hlength,
      ih (by rw [List.length_drop]; omega)]
    cases (input.take 16).findIdx? fun byte => !isPath context byte with
    | some offset => rfl
    | none =>
      simp only [Option.none_or, Option.map_map]
      congr 1
      ext offset
      simp only [Function.comp_apply]
      omega

theorem joint_eq_zero_iff : mask context (input.take 16) ||| mask context ((input.drop 16).take 16) |||
    mask context ((input.drop 32).take 16) ||| mask context ((input.drop 48).take 16) = 0 ↔
      ∀ byte ∈ input.take 64, (!isPath context byte) = false := by
  have hsplit : input.take 64 = input.take 16 ++ ((input.drop 16).take 16 ++
      ((input.drop 32).take 16 ++ (input.drop 48).take 16)) := by
    have h (n m : ℕ) : (input.drop n).take 16 ++ (input.drop (n + 16)).take m =
        (input.drop n).take (16 + m) := by
      rw [List.take_add, List.drop_drop]
    rw [h 32 16, h 16 32, ← List.take_add]
  simp only [mask, Nat.or_eq_zero_iff, Swar.marks_eq_zero_iff, hsplit, List.forall_mem_append,
    and_assoc]

theorem locateGroups_eq (h : groups * 64 ≤ input.length) :
    locateGroups context groups index input =
      ((input.take (groups * 64)).findIdx? fun byte => !isPath context byte).map (index + ·) := by
  induction groups generalizing index input with
  | zero => simp [locateGroups]
  | succ groups ih =>
    have hlength : 64 ≤ input.length := by omega
    have hjoint := @joint_eq_zero_iff context input
    have hlanes : locateLanes context 4 index input =
        ((input.take 64).findIdx? fun byte => !isPath context byte).map (index + ·) :=
      locateLanes_eq hlength
    have hsplit : input.take ((groups + 1) * 64) =
        input.take 64 ++ (input.drop 64).take (groups * 64) := by
      rw [← List.take_add, Nat.add_mul, Nat.add_comm, Nat.one_mul]
    have htake : (input.take 64).length = 64 := by rw [List.length_take, min_eq_left hlength]
    have hrest := @ih (index + 64) (input.drop 64) (by rw [List.length_drop]; omega)
    rw [locateGroups, hsplit, List.findIdx?_append, htake, hlanes, hrest]
    by_cases hnone : (input.take 64).findIdx? (fun byte => !isPath context byte) = none
    · rw [hnone]
      simp only [Option.map_none, ite_self, Option.none_or, Option.map_map]
      congr 1
      ext offset
      simp only [Function.comp_apply]
      omega
    · obtain ⟨offset, hoffset⟩ := Option.ne_none_iff_exists'.mp hnone
      rw [List.findIdx?_eq_none_iff, ← hjoint] at hnone
      rw [if_pos hnone, hoffset]
      rfl

/-- The lanes, the groups and the rest of the lanes are consecutive parts of the input. -/
theorem findIdx?_parts (hlanes : input.length / 16 ≠ 0) (p : UInt8 → Bool) :
    input.findIdx? p =
      ((((input.take 16).findIdx? p).or
        (((input.drop 16).take ((input.length / 16 - 1) / 4 * 64)).findIdx? p |>.map (· + 16))).or
        (((input.drop (16 + (input.length / 16 - 1) / 4 * 64)).take
          ((input.length / 16 - 1) % 4 * 16)).findIdx? p |>.map
            (· + (16 + (input.length / 16 - 1) / 4 * 64)))).or
        ((input.drop (input.length / 16 * 16)).findIdx? p |>.map (· + input.length / 16 * 16)) := by
  have hsum : 16 + (input.length / 16 - 1) / 4 * 64 + (input.length / 16 - 1) % 4 * 16 =
      input.length / 16 * 16 := by omega
  have hle : input.length / 16 * 16 ≤ input.length := Nat.div_mul_le_self _ _
  have hparts : input = ((input.take 16 ++
      (input.drop 16).take ((input.length / 16 - 1) / 4 * 64)) ++
      (input.drop (16 + (input.length / 16 - 1) / 4 * 64)).take
        ((input.length / 16 - 1) % 4 * 16)) ++ input.drop (input.length / 16 * 16) := by
    rw [← List.take_add, ← List.take_add, hsum, List.take_append_drop]
  conv_lhs => rw [hparts]
  simp only [List.findIdx?_append, List.length_append, List.length_take, List.length_drop]
  rw [min_eq_left (by omega), min_eq_left (by omega), min_eq_left (by omega), hsum]

/-- The first byte that is not plain. -/
theorem next_eq : next bytes start context =
    ((bytes.drop start).findIdx? fun byte => !isPath context byte).map (start + ·) := by
  rw [next, locate]
  by_cases hstart : bytes.length < start
  · rw [if_pos hstart, List.drop_eq_nil_of_le hstart.le]
    rfl
  rw [if_neg hstart]
  dsimp only
  by_cases hlanes : (bytes.drop start).length / 16 = 0
  · rw [if_pos hlanes]
  rw [if_neg hlanes, findIdx?_parts hlanes]
  have hplace : bytes.drop (start + (bytes.drop start).length / 16 * 16) =
      (bytes.drop start).drop ((bytes.drop start).length / 16 * 16) := by rw [List.drop_drop]
  have htail : (bytes.drop start).length % 16 = 0 →
      (bytes.drop start).drop ((bytes.drop start).length / 16 * 16) = [] := fun hmod =>
    List.drop_eq_nil_of_le (by omega)
  generalize bytes.drop start = input at *
  rw [locateLanes_eq (by omega), locateGroups_eq (by rw [List.length_drop]; omega),
    locateLanes_eq (by rw [List.length_drop]; omega), Nat.one_mul]
  -- part by part, as long as nothing is found
  cases (input.take 16).findIdx? fun byte => !isPath context byte with
  | some offset => simp
  | none =>
    cases ((input.drop 16).take ((input.length / 16 - 1) / 4 * 64)).findIdx?
        fun byte => !isPath context byte with
    | some offset =>
      simp only [Option.map_some, Option.map_none, Option.none_or, Option.some_or, Option.some.injEq]
      omega
    | none =>
      cases ((input.drop (16 + (input.length / 16 - 1) / 4 * 64)).take
          ((input.length / 16 - 1) % 4 * 16)).findIdx? fun byte => !isPath context byte with
      | some offset =>
        simp only [Option.map_some, Option.map_none, Option.none_or, Option.some_or,
          Option.some.injEq]
        omega
      | none =>
        simp only [Option.map_none, Option.none_or]
        by_cases hmod : input.length % 16 = 0
        · rw [if_pos hmod, htail hmod]
          rfl
        · rw [if_neg hmod]
          simp only [hplace, Option.map_map]
          congr 1
          ext offset
          simp only [Function.comp_apply]
          omega

theorem le_of_next {place : ℕ} (h : next bytes start context = some place) : start ≤ place := by
  rw [next_eq, Option.map_eq_some_iff] at h
  obtain ⟨offset, -, rfl⟩ := h
  omega

end Lanes

/-! ## The run -/

/-- `path::escape`. -/
def escape (bytes : Bytes) (place : ℕ) : Except PathError ℕ :=
  let first := bytes[place + 1]?
  let second := bytes[place + 2]?
  if first.any isHexDigit && second.any isHexDigit then .ok (place + 3)
  else .error (.escape place first second)

theorem escape_eq_ok {place after : ℕ} {bytes : Bytes} (h : escape bytes place = .ok after) :
    after = place + 3 := by
  rw [escape] at h
  split at h
  · exact (Except.ok.inj h).symm
  · exact absurd h (by simp)

/-- `path::run`, with the constant `PREFIX` as `front`. -/
def run (front : Bool) (bytes : Bytes) (state : Cursor) : Except PathError Stage :=
  match hnext : next bytes state.place state.query.context with
  | none => .ok (.exhausted state)
  | some place =>
    match hbyte : bytes[place]? with
    | none => .ok (.exhausted state)
    | some byte =>
      if byte = 0x20 ∧ front = true then .ok (.found ⟨place, state.query⟩)
      else if byte = 0x3f ∧ state.query.context = .path then
        run front bytes ⟨place + 1, .query place⟩
      else if byte = 0x25 then
        match hescape : escape bytes place with
        | .ok after => run front bytes ⟨after, state.query⟩
        | .error (.escape broken first second) =>
          -- the escape may go on behind a prefix
          if front && second.isNone && first.all isHexDigit then .ok (.exhausted state)
          else .error (.escape broken first second)
        | .error error => .error error
      else .error (.byte place byte)
termination_by bytes.length - state.place
decreasing_by
  all_goals
    have hle := le_of_next hnext
    have hlt := (List.getElem?_eq_some_iff.mp hbyte).1
    try obtain rfl := escape_eq_ok hescape
    omega

/-- `Scan::prefix`. -/
def prefixPlan (bytes : Bytes) : Outcome :=
  match run true bytes ⟨0, .path⟩ with
  | .ok (.found plan) => .complete plan
  | .ok (.exhausted _) => .incomplete
  | .error error => .invalid error

/-- `Scan::complete`. -/
def complete (bytes : Bytes) : Except PathError Plan :=
  match run false bytes ⟨0, .path⟩ with
  | .ok (.found plan) => .ok plan
  | .ok (.exhausted cursor) => .ok ⟨bytes.length, cursor.query⟩
  | .error error => .error error

/-! ## The walk -/

/-- The bytes one by one: where the prefix ends, if it does, and where its query begins. -/
def walk (front : Bool) (place : ℕ) (query : At) : Bytes → Except PathError (Option ℕ × At)
  | [] => .ok (none, query)
  | byte :: rest =>
    if isPath query.context byte then walk front (place + 1) query rest
    else if byte = 0x20 ∧ front = true then .ok (some place, query)
    else if byte = 0x3f ∧ query.context = .path then walk front (place + 1) (.query place) rest
    else if byte = 0x25 then
      match rest with
      | first :: second :: rest =>
        if isHexDigit first && isHexDigit second then walk front (place + 3) query rest
        else .error (.escape place (some first) (some second))
      | [first] =>
        if front && isHexDigit first then .ok (none, query)
        else .error (.escape place (some first) none)
      | [] => if front then .ok (none, query) else .error (.escape place none none)
    else .error (.byte place byte)

/-- What a stage says about the prefix and its query. -/
def Stage.summary : Stage → Option ℕ × At
  | .found plan => (some plan.stop, plan.query)
  | .exhausted cursor => (none, cursor.query)

theorem walk_plain {front : Bool} {place : ℕ} {query : At} {byte : UInt8} {rest : Bytes}
    (h : isPath query.context byte = true) :
    walk front place query (byte :: rest) = walk front (place + 1) query rest := by
  rw [walk.eq_def]
  dsimp only
  rw [if_pos h]

theorem walk_special {front : Bool} {place : ℕ} {query : At} {byte : UInt8} {rest : Bytes}
    (h : isPath query.context byte = false) :
    walk front place query (byte :: rest) =
      if byte = 0x20 ∧ front = true then .ok (some place, query)
      else if byte = 0x3f ∧ query.context = .path then walk front (place + 1) (.query place) rest
      else if byte = 0x25 then
        if rest[0]?.any isHexDigit && rest[1]?.any isHexDigit then
          walk front (place + 3) query (rest.drop 2)
        else if front && rest[1]?.isNone && rest[0]?.all isHexDigit then .ok (none, query)
        else .error (.escape place rest[0]? rest[1]?)
      else .error (.byte place byte) := by
  rw [walk.eq_def]
  dsimp only
  rw [if_neg (by simp [h])]
  congr 3
  rcases rest with _ | ⟨first, _ | ⟨second, rest⟩⟩ <;> simp

theorem exists_of_findIdx? {p : UInt8 → Bool} {input : Bytes} {offset : ℕ}
    (h : input.findIdx? p = some offset) : ∃ lead byte rest, input = lead ++ byte :: rest ∧
      lead.length = offset ∧ (∀ byte ∈ lead, p byte = false) ∧ p byte = true := by
  induction input generalizing offset with
  | nil => simp at h
  | cons first input ih =>
    rw [List.findIdx?_cons] at h
    split at h
    next hfirst => exact ⟨[], first, input, rfl, by simpa using h, by simp, hfirst⟩
    next hfirst =>
      rw [Option.map_eq_some_iff] at h
      obtain ⟨offset, hoffset, rfl⟩ := h
      obtain ⟨lead, byte, rest, rfl, rfl, hlead, hbyte⟩ := ih hoffset
      refine ⟨first :: lead, byte, rest, rfl, rfl, ?_, hbyte⟩
      exact List.forall_mem_cons.mpr ⟨by simpa using hfirst, hlead⟩

theorem walk_append {front : Bool} {place : ℕ} {query : At} {lead rest : Bytes}
    (h : ∀ byte ∈ lead, isPath query.context byte = true) :
    walk front place query (lead ++ rest) = walk front (place + lead.length) query rest := by
  induction lead generalizing place with
  | nil => rfl
  | cons byte lead ih =>
    rw [List.cons_append, walk_plain (h byte List.mem_cons_self),
      ih (fun byte hbyte => h byte (List.mem_cons_of_mem _ hbyte)), List.length_cons]
    congr 1
    omega

/-- The scanner is the walk over the bytes. -/
theorem run_eq (front : Bool) (bytes : Bytes) (state : Cursor) :
    (run front bytes state).map Stage.summary =
      walk front state.place state.query (bytes.drop state.place) := by
  induction hsize : bytes.length - state.place using Nat.strong_induction_on generalizing state with
  | _ size ih =>
  rw [run]
  split
  next hnext =>
    -- every byte is plain
    rw [next_eq, Option.map_eq_none_iff, List.findIdx?_eq_none_iff] at hnext
    rw [← List.append_nil (bytes.drop state.place), walk_append (by simpa using hnext)]
    rfl
  next place hnext =>
    rw [next_eq, Option.map_eq_some_iff] at hnext
    obtain ⟨offset, hoffset, rfl⟩ := hnext
    obtain ⟨lead, byte, rest, hdrop, rfl, hlead, hbyte⟩ := exists_of_findIdx? hoffset
    have hget (i : ℕ) : bytes[state.place + lead.length + 1 + i]? = rest[i]? := by
      have h : (bytes.drop state.place)[lead.length + 1 + i]? = rest[i]? := by
        rw [hdrop, List.getElem?_append_right (by omega)]
        rw [show lead.length + 1 + i - lead.length = i + 1 by omega, List.getElem?_cons_succ]
      rw [← h, List.getElem?_drop]
      congr 1
      omega
    have hat : bytes[state.place + lead.length]? = some byte := by
      rw [← List.getElem?_drop, hdrop, List.getElem?_append_right le_rfl, Nat.sub_self]
      rfl
    have hlength : state.place + lead.length < bytes.length :=
      (List.getElem?_eq_some_iff.mp hat).1
    have hrest (i : ℕ) : bytes.drop (state.place + lead.length + 1 + i) = rest.drop i := by
      rw [show state.place + lead.length + 1 + i = state.place + (lead.length + 1 + i) by omega,
        ← List.drop_drop, hdrop, List.drop_append, List.drop_eq_nil_of_le (by omega),
        show lead.length + 1 + i - lead.length = i + 1 by omega, List.nil_append,
        List.drop_succ_cons]
    have hplain : isPath state.query.context byte = false := by simpa using hbyte
    rw [hdrop, walk_append (by simpa using hlead), walk_special hplain]
    split
    next hnone => exact absurd (hat.symm.trans hnone) (by simp)
    next found hfound =>
      obtain rfl : byte = found := Option.some.inj (hat.symm.trans hfound)
      split
      next => rfl
      next =>
        split
        next =>
          rw [ih _ (by dsimp only; omega)
            ⟨state.place + lead.length + 1, .query (state.place + lead.length)⟩ rfl]
          congr 1
          exact hrest 0
        next =>
          split
          next =>
            have hone := hget 0
            have htwo := hget 1
            rw [Nat.add_zero] at hone
            rw [Nat.add_assoc _ 1 1] at htwo
            rw [← hone, ← htwo]
            split
            next after hescape =>
              obtain rfl := escape_eq_ok hescape
              rw [escape] at hescape
              split at hescape
              next hhex =>
                rw [if_pos hhex, ih _ (by dsimp only; omega)
                  ⟨state.place + lead.length + 3, state.query⟩ rfl]
                congr 1
                exact hrest 2
              next => exact absurd hescape (by simp)
            next broken first second hescape =>
              rw [escape] at hescape
              split at hescape
              next => exact absurd hescape (by simp)
              next hhex =>
                simp only [Except.error.injEq, PathError.escape.injEq] at hescape
                obtain ⟨rfl, rfl, rfl⟩ := hescape
                rw [if_neg hhex]
                split <;> rfl
            next error hother hescape =>
              rw [escape] at hescape
              split at hescape
              next => exact absurd hescape (by simp)
              next => exact (hother _ _ _ (Except.error.inj hescape).symm).elim
          next => rfl

/-! ## What is accepted -/

/-- Plain bytes and escapes. -/
inductive Chars (context : Context) : Bytes → Prop
  | nil : Chars context []
  | plain {byte : UInt8} {rest : Bytes} (h : isPath context byte = true)
      (hrest : Chars context rest) : Chars context (byte :: rest)
  | escape {first second : UInt8} {rest : Bytes} (hfirst : isHexDigit first = true)
      (hsecond : isHexDigit second = true) (hrest : Chars context rest) :
      Chars context (0x25 :: first :: second :: rest)

/-- A path, and behind a question mark its query. -/
inductive PathQuery : Bytes → Plan → Prop
  | path {text : Bytes} (h : Chars .path text) : PathQuery text ⟨text.length, .path⟩
  | query {path query : Bytes} (hpath : Chars .path path) (hquery : Chars .query query) :
      PathQuery (path ++ 0x3f :: query) ⟨(path ++ 0x3f :: query).length, .query path.length⟩

theorem isPath_of_isHexDigit {context : Context} {byte : UInt8} (h : isHexDigit byte = true) :
    isPath context byte = true := by
  have hclass : isAlphabetic byte = true ∨ byte - 0x26 ≤ 0x3b - 0x26 := by
    simp only [isHexDigit, isAlphabetic, Bool.or_eq_true, Bool.and_eq_true, decide_eq_true_eq,
      UInt8.le_iff_toNat_le, UInt8.toNat_sub, UInt8.reduceToNat] at h ⊢
    have := byte.toNat_lt
    omega
  simp only [isPath, Bool.or_eq_true, decide_eq_true_eq]
  tauto

theorem Chars.bytes {context : Context} {text : Bytes} (h : Chars context text) :
    ∀ byte ∈ text, isPath context byte = true ∨ byte = 0x25 := by
  induction h with
  | nil => simp
  | plain h hrest ih => exact List.forall_mem_cons.mpr ⟨.inl h, ih⟩
  | escape hfirst hsecond hrest ih =>
    exact List.forall_mem_cons.mpr ⟨.inr rfl, List.forall_mem_cons.mpr
      ⟨.inl (isPath_of_isHexDigit hfirst), List.forall_mem_cons.mpr
        ⟨.inl (isPath_of_isHexDigit hsecond), ih⟩⟩⟩

/-- A byte that is not plain is in no text but as a percent sign or as the question mark. -/
theorem Chars.notMem {context : Context} {text : Bytes} (h : Chars context text) {byte : UInt8}
    (hplain : isPath context byte = false) (hpercent : byte ≠ 0x25) : byte ∉ text := by
  intro hmem
  rcases h.bytes byte hmem with hbyte | hbyte
  · rw [hplain] at hbyte
    exact Bool.noConfusion hbyte
  · exact hpercent hbyte

theorem PathQuery.notMem {text : Bytes} {plan : Plan} (h : PathQuery text plan) {byte : UInt8}
    (hplain : isPath .query byte = false) (hpercent : byte ≠ 0x25) (hmark : byte ≠ 0x3f) :
    byte ∉ text := by
  have hpath : isPath .path byte = false := by
    simp only [isPath, Bool.or_eq_false_iff] at hplain ⊢
    simpa using hplain.1
  cases h with
  | path h => exact h.notMem hpath hpercent
  | query hpath' hquery =>
    rw [List.mem_append, List.mem_cons, not_or, not_or]
    exact ⟨hpath'.notMem hpath hpercent, hmark, hquery.notMem hplain hpercent⟩

theorem PathQuery.pathEnd_le {text : Bytes} {plan : Plan} (h : PathQuery text plan) :
    plan.stop = text.length ∧ plan.pathEnd ≤ text.length := by
  cases h with
  | path h => exact ⟨rfl, le_rfl⟩
  | query hpath hquery => exact ⟨rfl, by simp [Plan.pathEnd]⟩

theorem not_isPath_percent (context : Context) : isPath context 0x25 = false := by
  cases context <;> decide

theorem walk_chars {front : Bool} {place : ℕ} {query : At} {lead rest : Bytes}
    (h : Chars query.context lead) :
    walk front place query (lead ++ rest) = walk front (place + lead.length) query rest := by
  generalize hcontext : query.context = context at h
  induction h generalizing place with
  | nil => rfl
  | plain h hrest ih =>
    rw [List.cons_append, walk_plain (by rw [hcontext]; exact h), ih, List.length_cons]
    congr 1
    omega
  | escape hfirst hsecond hrest ih =>
    rw [List.cons_append, walk_special (by rw [hcontext]; exact not_isPath_percent _)]
    simp only [List.cons_append, List.getElem?_cons_zero, List.getElem?_cons_succ, Option.any_some,
      hfirst, hsecond, List.drop_succ_cons, List.drop_zero, List.length_cons]
    rw [if_neg (by simp), if_neg (by simp), if_pos True.intro, if_pos (by rfl), ih]
    congr 1
    omega

/-- Where a whole walk comes to: the end, or a question mark in front of the query. -/
theorem exists_chars {place : ℕ} {query : At} {text : Bytes} {result : Option ℕ × At}
    (h : walk false place query text = .ok result) : ∃ lead rest, text = lead ++ rest ∧
      Chars query.context lead ∧ (rest = [] ∧ result = (none, query) ∨
        ∃ more, query.context = .path ∧ rest = 0x3f :: more ∧
          walk false (place + lead.length + 1) (.query (place + lead.length)) more = .ok result) := by
  induction hsize : text.length using Nat.strong_induction_on generalizing place text with
  | _ size ih =>
  cases text with
  | nil => exact ⟨[], [], rfl, .nil, .inl ⟨rfl, (Except.ok.inj h).symm⟩⟩
  | cons byte rest =>
    rw [List.length_cons] at hsize
    cases hplain : isPath query.context byte with
    | true =>
      rw [walk_plain hplain] at h
      obtain ⟨lead, more, rfl, hlead, hmore⟩ := ih rest.length (by omega) h rfl
      refine ⟨byte :: lead, more, rfl, .plain hplain hlead, ?_⟩
      rwa [List.length_cons, show place + (lead.length + 1) = place + 1 + lead.length by omega]
    | false =>
      rw [walk_special hplain, if_neg (by simp)] at h
      split at h
      next hmark =>
        obtain ⟨rfl, hcontext⟩ := hmark
        exact ⟨[], _, rfl, .nil, .inr ⟨rest, hcontext, rfl, h⟩⟩
      next =>
        split at h
        next hpercent =>
          subst hpercent
          split at h
          next hhex =>
            rw [Bool.and_eq_true, Option.any_eq_true, Option.any_eq_true] at hhex
            obtain ⟨⟨first, hfirst, hfirstHex⟩, second, hsecond, hsecondHex⟩ := hhex
            match rest, hfirst, hsecond with
            | [], hfirst, _ => simp at hfirst
            | [_], _, hsecond => simp at hsecond
            | first' :: second' :: rest, hfirst, hsecond =>
              obtain rfl := Option.some.inj hfirst
              obtain rfl := Option.some.inj hsecond
              simp only [List.length_cons] at hsize
              obtain ⟨lead, more, rfl, hlead, hmore⟩ := ih rest.length (by omega) h rfl
              refine ⟨0x25 :: first' :: second' :: lead, more, rfl,
                .escape hfirstHex hsecondHex hlead, ?_⟩
              simp only [List.length_cons]
              rwa [show place + (lead.length + 1 + 1 + 1) = place + 3 + lead.length by omega]
          next => exact absurd h (by simp)
        next => exact absurd h (by simp)

theorem walk_eq_none {place : ℕ} {text : Bytes} {result : Option ℕ × At}
    (h : walk false place .path text = .ok result) : result.1 = none := by
  obtain ⟨lead, rest, -, -, ⟨-, rfl⟩ | ⟨more, -, -, hmore⟩⟩ := exists_chars h
  · rfl
  · obtain ⟨tail, rest, -, -, ⟨-, rfl⟩ | ⟨_, hcontext, -⟩⟩ := exists_chars hmore
    · rfl
    · exact absurd hcontext (by simp [At.context])

theorem complete_iff_walk {text : Bytes} {plan : Plan} : complete text = .ok plan ↔
    plan.stop = text.length ∧ walk false 0 .path text = .ok (none, plan.query) := by
  have hrun := run_eq false text ⟨0, .path⟩
  rw [List.drop_zero] at hrun
  dsimp only at hrun
  rw [complete, ← hrun]
  cases hstage : run false text ⟨0, .path⟩ with
  | error error => simp [Except.map]
  | ok stage =>
    cases stage with
    | found plan =>
      rw [hstage] at hrun
      exact absurd (walk_eq_none hrun.symm) (by simp [Stage.summary])
    | exhausted cursor =>
      obtain ⟨stop, query⟩ := plan
      simp only [Except.map, Stage.summary, Except.ok.injEq, Plan.mk.injEq, Prod.mk.injEq, true_and]
      exact and_congr_left fun _ => eq_comm

theorem complete_iff {text : Bytes} {plan : Plan} :
    complete text = .ok plan ↔ PathQuery text plan := by
  rw [complete_iff_walk]
  constructor
  · rintro ⟨hstop, hwalk⟩
    obtain ⟨stop, query⟩ := plan
    obtain rfl : stop = text.length := hstop
    obtain ⟨lead, rest, rfl, hlead, ⟨rfl, hresult⟩ | ⟨more, -, rfl, hmore⟩⟩ := exists_chars hwalk
    · obtain rfl : query = .path := by simpa using hresult
      rw [List.append_nil]
      exact .path hlead
    · obtain ⟨tail, rest, rfl, htail, ⟨rfl, hresult⟩ | ⟨_, hcontext, -⟩⟩ := exists_chars hmore
      · obtain rfl : query = .query (0 + lead.length) := by simpa using hresult
        rw [List.append_nil, Nat.zero_add]
        exact .query hlead htail
      · exact absurd hcontext (by simp [At.context])
  · rintro (h | ⟨hpath, hquery⟩)
    · refine ⟨rfl, ?_⟩
      rw [← List.append_nil text, @walk_chars _ _ .path _ _ h]
      rfl
    · refine ⟨rfl, ?_⟩
      rename_i path query
      rw [@walk_chars _ _ .path _ _ hpath, walk_special (by decide), if_neg (by simp),
        if_pos (by decide), ← List.append_nil query, @walk_chars _ _ (.query _) _ _ hquery,
        Nat.zero_add]
      rfl

/-! ## A prefix -/

/-- In front of a space, the walk over a prefix is the walk over the whole text. -/
theorem walk_space {place : ℕ} {query : At} {target rest : Bytes} (h : 0x20 ∉ target) :
    (walk true place query (target ++ 0x20 :: rest)).toOption =
      (walk false place query target).toOption.map fun result =>
        (some (place + target.length), result.2) := by
  induction hsize : target.length using Nat.strong_induction_on
    generalizing place query target with
  | _ size ih =>
  cases target with
  | nil =>
    have hspace : isPath query.context 0x20 = false := by cases query.context <;> decide
    obtain rfl := hsize
    rw [List.nil_append, walk_special hspace, if_pos ⟨rfl, rfl⟩]
    rfl
  | cons byte target =>
    have hne : byte ≠ 0x20 := fun heq => h (heq ▸ List.mem_cons_self)
    have htarget : 0x20 ∉ target := fun hmem => h (List.mem_cons_of_mem _ hmem)
    rw [List.length_cons] at hsize
    have hplace : place + size = place + 1 + target.length := by omega
    rw [List.cons_append, hplace]
    cases hplain : isPath query.context byte with
    | true => rw [walk_plain hplain, walk_plain hplain, ih target.length (by omega) htarget rfl]
    | false =>
      have hspace (front : Bool) : ¬(byte = 0x20 ∧ front = true) := fun h => hne h.1
      rw [walk_special hplain, walk_special hplain, if_neg (hspace true), if_neg (hspace false)]
      split
      next => exact ih target.length (by omega) htarget rfl
      next =>
        split
        next =>
          -- the space is no digit of an escape
          rcases target with _ | ⟨first, _ | ⟨second, target⟩⟩
          · have hdigit : isHexDigit 0x20 = false := by decide
            simp [hdigit]
          · have hdigit : isHexDigit 0x20 = false := by decide
            simp [hdigit]
          · simp only [List.cons_append, List.getElem?_cons_zero, List.getElem?_cons_succ,
              Option.any_some, List.drop_succ_cons, List.drop_zero, Option.isNone_some,
              Bool.and_false, Bool.false_and, Bool.false_eq_true, if_false]
            simp only [List.length_cons] at hsize hplace ⊢
            split
            next =>
              rw [ih target.length (by omega)
                (fun hmem => htarget (List.mem_cons_of_mem _ (List.mem_cons_of_mem _ hmem))) rfl,
                show place + 1 + (target.length + 1 + 1) = place + 3 + target.length by omega]
            next => rfl
        next => rfl

/-- A text in front of a space is accepted as a prefix exactly if it is as a whole. -/
theorem prefixPlan_iff {target rest : Bytes} (h : 0x20 ∉ target) {plan : Plan} :
    prefixPlan (target ++ 0x20 :: rest) = .complete plan ↔ complete target = .ok plan := by
  have hrun := run_eq true (target ++ 0x20 :: rest) ⟨0, .path⟩
  have hspace := @walk_space 0 .path target rest h
  rw [List.drop_zero] at hrun
  dsimp only at hrun
  rw [← hrun] at hspace
  rw [complete_iff_walk, prefixPlan, ← Except.toOption_eq_some_iff]
  obtain ⟨stop, query⟩ := plan
  cases hwalk : (walk false 0 .path target).toOption with
  | none =>
    rw [hwalk, Option.map_none] at hspace
    refine iff_of_false ?_ (by simp)
    cases hstage : run true (target ++ 0x20 :: rest) ⟨0, .path⟩ with
    | error error => simp
    | ok stage =>
      rw [hstage] at hspace
      exact absurd hspace (by simp [Except.map])
  | some result =>
    have hresult := walk_eq_none (Except.toOption_eq_some_iff.mp hwalk)
    rw [hwalk, Option.map_some, Except.toOption_eq_some_iff, Except.map_eq_ok_iff] at hspace
    obtain ⟨stage, hstage, hsummary⟩ := hspace
    obtain ⟨_, query'⟩ := result
    obtain rfl := hresult
    rw [hstage]
    cases stage with
    | found plan =>
      obtain ⟨stop', query''⟩ := plan
      simp only [Stage.summary, Prod.mk.injEq, Option.some.injEq, Nat.zero_add] at hsummary
      obtain ⟨rfl, rfl⟩ := hsummary
      simp only [Outcome.complete.injEq, Plan.mk.injEq, Option.some.injEq, Prod.mk.injEq, true_and]
      exact and_congr_left fun _ => eq_comm
    | exhausted cursor => simp [Stage.summary] at hsummary

theorem prefixPlan_ne_incomplete {target rest : Bytes} (h : 0x20 ∉ target) :
    prefixPlan (target ++ 0x20 :: rest) ≠ .incomplete := by
  have hrun := run_eq true (target ++ 0x20 :: rest) ⟨0, .path⟩
  have hspace := @walk_space 0 .path target rest h
  rw [List.drop_zero] at hrun
  dsimp only at hrun
  rw [← hrun] at hspace
  rw [prefixPlan]
  cases hstage : run true (target ++ 0x20 :: rest) ⟨0, .path⟩ with
  | error error => simp
  | ok stage =>
    cases stage with
    | found plan => simp
    | exhausted cursor =>
      rw [hstage] at hspace
      cases hwalk : (walk false 0 .path target).toOption with
      | none =>
        rw [hwalk, Option.map_none] at hspace
        exact absurd hspace (by simp [Except.map])
      | some result =>
        rw [hwalk, Option.map_some] at hspace
        exact absurd hspace (by simp [Except.map, Stage.summary])

end Scan

end Sark.Uri
