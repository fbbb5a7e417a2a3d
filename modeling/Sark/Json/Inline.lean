import Sark.Json.Writing

/-!
# Inline values

`inline_plain` and `inline_depth` of `json/src/input.rs` read a value that has to fit a buffer of a
fixed capacity. They use the loops that read any value, with a `Limit`: what is handed to the skip
loops is cut at the end of the scan, by a slice that is not checked, and the limit is tested behind
every run and every byte. Both loops are the one of a `Scanner`, which skips a run of bytes and then
steps over one.

* `Scanner.loopUnchecked_eq`: no slice that is cut begins behind its end.
* `Scanner.loop_limit_eq_ok_iff`: the loop with a limit is the loop without one, and a test of where
  it stops.
* `inline_bounded`: so it is for inline values.
-/

namespace Sark.Json

/-! ## Limits -/

theorem Limit.check_eq_ok_iff {limit : Limit} {stop : ℕ} :
    limit.check stop = .ok () ↔ stop ≤ limit.start + (limit.capacity + limit.overhead) := by
  rw [Limit.check]
  split_ifs with h
  · simp only [false_iff]
    omega
  · simp only [true_iff]
    omega

theorem Limit.check_cases (limit : Limit) (stop : ℕ) :
    limit.check stop = .ok () ∨
      limit.check stop = .error .token ∧
        limit.start + (limit.capacity + limit.overhead) < stop := by
  by_cases h : stop ≤ limit.start + (limit.capacity + limit.overhead)
  · exact .inl (Limit.check_eq_ok_iff.mpr h)
  · refine .inr ⟨if_pos ?_, not_le.mp h⟩
    omega

/-! ## Scanners -/

/-- A scan of a byte string by runs that are skipped and single bytes that are stepped over. What is
skipped of a shorter input is cut where the input is. -/
structure Scanner (σ ρ : Type) where
  skip : σ → Bytes → Bytes
  step : σ → UInt8 → Except Error (ρ ⊕ σ)
  skip_take : ∀ state chunk n, skip state (chunk.take n) = (skip state chunk).take n

/-- `input.get_unchecked(lower..upper)`, which must be a range of the input. -/
def getUnchecked (input : Bytes) (lower upper : ℕ) : Option Bytes :=
  if lower ≤ upper ∧ upper ≤ input.length then some ((input.take upper).drop lower) else none

namespace Scanner

variable {σ ρ : Type} (self : Scanner σ ρ)

/-- One turn of the loop, behind the run that is skipped: what ends the loop, or the state it goes
on with. -/
def turn (input : Bytes) (limit : Option Limit) (state : σ) (stop : ℕ) : Except Error (ρ ⊕ σ) := do
  checkLimit limit stop
  match input[stop]? with
  | none => .error .invalid
  | some byte => do
    let result ← self.step state byte
    checkLimit limit (stop + 1)
    .ok result

/-- The loop: what ends it, and the index behind. -/
def loop (input : Bytes) (limit : Option Limit) (state : σ) (next : ℕ) : Except Error (ρ × ℕ) :=
  if next < input.length then
    let stop := next + (self.skip state (window input limit next)).length
    match self.turn input limit state stop with
    | .error error => .error error
    | .ok (.inl output) => .ok (output, stop + 1)
    | .ok (.inr state) => loop input limit state (stop + 1)
  else .error .invalid
termination_by input.length - next

/-- The loop with its slice as the source takes it: `none` where the slice is not a range. -/
def loopUnchecked (input : Bytes) (limit : Option Limit) (state : σ) (next : ℕ) :
    Option (Except Error (ρ × ℕ)) :=
  if next < input.length then
    match getUnchecked input next (scanEnd limit input.length) with
    | none => none
    | some chunk =>
      let stop := next + (self.skip state chunk).length
      match self.turn input limit state stop with
      | .error error => some (.error error)
      | .ok (.inl output) => some (.ok (output, stop + 1))
      | .ok (.inr state) => loopUnchecked input limit state (stop + 1)
  else some (.error .invalid)
termination_by input.length - next

variable {self} {input : Bytes} {limit : Option Limit} {state : σ} {next stop : ℕ}

/-! ## What a turn and a loop do -/

theorem turn_eq_ok_iff {result : ρ ⊕ σ} :
    self.turn input limit state stop = .ok result ↔
      checkLimit limit stop = .ok () ∧ (∃ byte, input[stop]? = some byte ∧
        self.step state byte = .ok result) ∧ checkLimit limit (stop + 1) = .ok () := by
  rw [turn, Except.bind_eq_ok_iff]
  cases hbyte : input[stop]? with
  | none => simp
  | some byte =>
    simp only [Except.bind_eq_ok_iff, Option.some.injEq, exists_eq_left', Except.ok.injEq]
    refine ⟨?_, ?_⟩
    · rintro ⟨_, hstop, result', hstep, _, hbehind, rfl⟩
      exact ⟨hstop, hstep, hbehind⟩
    · rintro ⟨hstop, hstep, hbehind⟩
      exact ⟨(), hstop, result, hstep, (), hbehind, rfl⟩

/-- What a loop does that ends well: it skips a run, and takes a turn that ends it or goes on. -/
theorem loop_eq_ok_iff {output : ρ} {final : ℕ} :
    self.loop input limit state next = .ok (output, final) ↔
      next < input.length ∧ ∃ stop,
        stop = next + (self.skip state (window input limit next)).length ∧
        (self.turn input limit state stop = .ok (.inl output) ∧ final = stop + 1 ∨
          ∃ following, self.turn input limit state stop = .ok (.inr following) ∧
            self.loop input limit following (stop + 1) = .ok (output, final)) := by
  rw [loop]
  by_cases hnext : next < input.length
  · rw [if_pos hnext]
    simp only [hnext, true_and, exists_eq_left]
    cases self.turn input limit state
        (next + (self.skip state (window input limit next)).length) with
    | error error => simp
    | ok result =>
      cases result with
      | inl output' => simp [Prod.ext_iff, eq_comm]
      | inr following => simp
  · rw [if_neg hnext]
    simp [hnext]

/-- A loop that ends well ends behind its run, inside the input, and within its limit. -/
theorem le_of_loop {output : ρ} {final : ℕ}
    (h : self.loop input limit state next = .ok (output, final)) :
    next + (self.skip state (window input limit next)).length < final ∧ final ≤ input.length ∧
      checkLimit limit final = .ok () := by
  generalize hlength : input.length - next = n
  induction n using Nat.strong_induction_on generalizing state next with
  | _ n ih =>
    obtain ⟨hnext, stop, hstop, ⟨hturn, rfl⟩ | ⟨following, hturn, hloop⟩⟩ := loop_eq_ok_iff.mp h
    · obtain ⟨-, ⟨byte, hbyte, -⟩, hbehind⟩ := turn_eq_ok_iff.mp hturn
      obtain ⟨hlt, -⟩ := drop_of_getElem? hbyte
      exact ⟨by omega, hlt, hbehind⟩
    · obtain ⟨hfinal, hrest⟩ := ih _ (by omega) hloop rfl
      exact ⟨by omega, hrest⟩

/-! ## The slices -/

theorem scanEnd_le (limit : Option Limit) (length : ℕ) : scanEnd limit length ≤ length := by
  cases limit with
  | none => exact le_rfl
  | some limit => exact Nat.min_le_left _ _

theorem le_scanEnd {length : ℕ} (hcheck : checkLimit limit next = .ok ()) (hnext : next < length) :
    next ≤ scanEnd limit length := by
  cases limit with
  | none => exact hnext.le
  | some limit =>
    have hstop := Limit.check_eq_ok_iff.mp hcheck
    show next ≤ min length (limit.start + (limit.capacity + limit.overhead + 1))
    omega

theorem loopUnchecked_eq (hcheck : checkLimit limit next = .ok ()) :
    self.loopUnchecked input limit state next = some (self.loop input limit state next) := by
  generalize hlength : input.length - next = n
  induction n using Nat.strong_induction_on generalizing state next with
  | _ n ih =>
    rw [loopUnchecked, loop]
    by_cases hnext : next < input.length
    · have hslice : getUnchecked input next (scanEnd limit input.length) =
          some (window input limit next) :=
        if_pos ⟨le_scanEnd hcheck hnext, scanEnd_le limit input.length⟩
      rw [if_pos hnext, if_pos hnext, hslice]
      dsimp only
      cases hturn : self.turn input limit state
          (next + (self.skip state (window input limit next)).length) with
      | error error => rfl
      | ok result =>
        cases result with
        | inl output => rfl
        | inr following =>
          -- the next slice begins where the turn has tested the limit
          obtain ⟨-, -, hbehind⟩ := turn_eq_ok_iff.mp hturn
          exact ih _ (by omega) hbehind rfl
    · rw [if_neg hnext, if_neg hnext]

/-! ## The limit -/

/-- The cut never hides anything that is within the limit: the runs of both loops end at the same
byte, or the run with the limit ends behind it. -/
theorem skip_window {limit : Limit} (hle : next ≤ input.length) :
    (self.skip state (window input (some limit) next)).length =
        (self.skip state (window input none next)).length ∨
      limit.start + (limit.capacity + limit.overhead) <
          next + (self.skip state (window input (some limit) next)).length ∧
        (self.skip state (window input (some limit) next)).length ≤
          (self.skip state (window input none next)).length := by
  have hnone : (self.skip state (input.drop next)).length ≤ input.length - next := by
    have htake := self.skip_take state (input.drop next) (input.length - next)
    rw [List.take_of_length_le (by rw [List.length_drop])] at htake
    rw [htake, List.length_take]
    exact Nat.min_le_left _ _
  have hsome : (self.skip state (window input (some limit) next)).length =
      min (limit.scanEnd input.length - next) (self.skip state (input.drop next)).length := by
    rw [window, List.drop_take, self.skip_take, List.length_take]
    rfl
  have hend : limit.scanEnd input.length =
      min input.length (limit.start + (limit.capacity + limit.overhead + 1)) := rfl
  rw [window_none, hsome]
  omega

theorem turn_limit_eq_ok_iff {limit : Limit} {result : ρ ⊕ σ} :
    self.turn input (some limit) state stop = .ok result ↔
      self.turn input none state stop = .ok result ∧ limit.check (stop + 1) = .ok () := by
  rw [turn_eq_ok_iff, turn_eq_ok_iff]
  refine ⟨fun ⟨_, hstep, hbehind⟩ => ⟨⟨rfl, hstep, rfl⟩, hbehind⟩, ?_⟩
  rintro ⟨⟨-, hstep, -⟩, hbehind⟩
  have hstop := Limit.check_eq_ok_iff.mp hbehind
  exact ⟨Limit.check_eq_ok_iff.mpr (by omega), hstep, hbehind⟩

/-- The loop with a limit is the loop without one, and a test of where it stops. -/
theorem loop_limit_eq_ok_iff {limit : Limit} {output : ρ} {final : ℕ} :
    self.loop input (some limit) state next = .ok (output, final) ↔
      self.loop input none state next = .ok (output, final) ∧ limit.check final = .ok () := by
  generalize hlength : input.length - next = n
  induction n using Nat.strong_induction_on generalizing state next with
  | _ n ih =>
    by_cases hnext : next < input.length
    · have hfirst := @skip_window σ ρ self input state next limit hnext.le
      refine ⟨fun h => ?_, fun ⟨h, hcheck⟩ => ?_⟩
      · obtain ⟨-, stop, hstop, hrest⟩ := loop_eq_ok_iff.mp h
        have hsame : stop = next + (self.skip state (window input none next)).length := by
          have hturn : limit.check (stop + 1) = .ok () := by
            rcases hrest with ⟨hturn, -⟩ | ⟨following, hturn, -⟩
            · exact (turn_limit_eq_ok_iff.mp hturn).2
            · exact (turn_limit_eq_ok_iff.mp hturn).2
          have hwithin := Limit.check_eq_ok_iff.mp hturn
          omega
        rcases hrest with ⟨hturn, rfl⟩ | ⟨following, hturn, hloop⟩
        · obtain ⟨hturn, hcheck⟩ := turn_limit_eq_ok_iff.mp hturn
          exact ⟨loop_eq_ok_iff.mpr ⟨hnext, stop, hsame, .inl ⟨hturn, rfl⟩⟩, hcheck⟩
        · obtain ⟨hturn, -⟩ := turn_limit_eq_ok_iff.mp hturn
          obtain ⟨hloop, hcheck⟩ := (ih _ (by omega) rfl).mp hloop
          exact ⟨loop_eq_ok_iff.mpr ⟨hnext, stop, hsame, .inr ⟨following, hturn, hloop⟩⟩, hcheck⟩
      · have hwithin := Limit.check_eq_ok_iff.mp hcheck
        obtain ⟨hfinal, -⟩ := le_of_loop h
        obtain ⟨-, stop, hstop, hrest⟩ := loop_eq_ok_iff.mp h
        have hsame : stop = next + (self.skip state (window input (some limit) next)).length := by
          omega
        rcases hrest with ⟨hturn, rfl⟩ | ⟨following, hturn, hloop⟩
        · exact loop_eq_ok_iff.mpr ⟨hnext, stop, hsame,
            .inl ⟨turn_limit_eq_ok_iff.mpr ⟨hturn, hcheck⟩, rfl⟩⟩
        · have hbehind : limit.check (stop + 1) = .ok () := by
            obtain ⟨hlater, -⟩ := le_of_loop hloop
            exact Limit.check_eq_ok_iff.mpr (by omega)
          exact loop_eq_ok_iff.mpr ⟨hnext, stop, hsame,
            .inr ⟨following, turn_limit_eq_ok_iff.mpr ⟨hturn, hbehind⟩,
              (ih _ (by omega) rfl).mpr ⟨hloop, hcheck⟩⟩⟩
    · refine iff_of_false (fun h => hnext (loop_eq_ok_iff.mp h).1) fun h => ?_
      exact hnext (loop_eq_ok_iff.mp h.1).1

end Scanner

/-! ## Strings and containers -/

theorem StringScan.skip_take (self : StringScan) (chunk : Bytes) (n : ℕ) :
    self.skip (chunk.take n) = (self.skip chunk).take n := by
  unfold StringScan.skip
  split_ifs
  · rw [List.take_nil]
  · rw [takePlain_eq, takePlain_eq, List.take_takeWhile]

theorem Nesting.skip_take (self : Nesting) (chunk : Bytes) (n : ℕ) :
    self.skip (chunk.take n) = (self.skip chunk).take n := by
  unfold Nesting.skip
  cases self.mode with
  | structural => exact List.take_takeWhile.symm
  | string string => exact string.skip_take chunk n
  | atom atom => exact List.take_nil.symm
  | admitted quoted escaped =>
    dsimp only
    split_ifs
    · exact List.take_nil.symm
    · exact List.take_takeWhile.symm
    · exact List.take_takeWhile.symm

/-- The scanner of `string_with`, which ends with the count of removed bytes. -/
def strings : Scanner StringScan ℕ where
  skip := StringScan.skip
  step string byte :=
    match string.step byte with
    | .error error => .error error
    | .ok none => .ok (.inl string.removed)
    | .ok (some (string, _)) => .ok (.inr string)
  skip_take := StringScan.skip_take

/-- The scanner of `group_at`. -/
def groups : Scanner Nesting Unit where
  skip := Nesting.skip
  step nesting byte :=
    match nesting.step byte with
    | (_, .error error) => .error error
    | (nesting, .ok done) => .ok (if done then .inl () else .inr nesting)
  skip_take := Nesting.skip_take

/-- The span of a string that the scanner has ended. -/
def spanAt (input : Bytes) (start : ℕ) (result : ℕ × ℕ) : StringSpan × ℕ :=
  (.new input start (result.2 - 1) result.1, result.2)

theorem stringLoop_eq_loop (input : Bytes) (limit : Option Limit) (start : ℕ) (string : StringScan)
    (next : ℕ) :
    stringLoop input limit start string next =
      (strings.loop input limit string next).map (spanAt input start) := by
  generalize hlength : input.length - next = n
  induction n using Nat.strong_induction_on generalizing string next with
  | _ n ih =>
    rw [stringLoop, Scanner.loop]
    by_cases hnext : next < input.length
    · rw [if_pos hnext, if_pos hnext]
      dsimp only [strings, Scanner.turn]
      generalize hstop : next + (string.skip (window input limit next)).length = stop
      cases checkLimit limit stop with
      | error error => rfl
      | ok done =>
        cases hbyte : input[stop]? with
        | none => rfl
        | some byte =>
          dsimp only
          cases hstep : string.step byte with
          | error error => rfl
          | ok result =>
            cases checkLimit limit (stop + 1) with
            | error error => cases result <;> rfl
            | ok done =>
              cases result with
              | none => rfl
              | some result =>
                exact ih _ (by omega) result.1 (stop + 1) rfl
    · rw [if_neg hnext, if_neg hnext]
      rfl

theorem groupLoop_eq_loop (input : Bytes) (limit : Option Limit) (nesting : Nesting) (next : ℕ) :
    groupLoop input limit nesting next =
      (groups.loop input limit nesting next).map Prod.snd := by
  generalize hlength : input.length - next = n
  induction n using Nat.strong_induction_on generalizing nesting next with
  | _ n ih =>
    rw [groupLoop, Scanner.loop]
    by_cases hnext : next < input.length
    · rw [if_pos hnext, if_pos hnext]
      dsimp only [groups, Scanner.turn]
      generalize hstop : next + (nesting.skip (window input limit next)).length = stop
      cases checkLimit limit stop with
      | error error => rfl
      | ok done =>
        cases hbyte : input[stop]? with
        | none => rfl
        | some byte =>
          dsimp only
          rcases hstep : nesting.step byte with ⟨following, error | closed⟩
          · rfl
          · cases checkLimit limit (stop + 1) with
            | error error => rfl
            | ok done =>
              cases closed with
              | true => rfl
              | false => exact ih _ (by omega) following (stop + 1) rfl
    · rw [if_neg hnext, if_neg hnext]
      rfl

/-! ## Values with a limit -/

section Limited

variable {input : Bytes} {limit : Limit} {index stop : ℕ}

theorem map_loop_limit_eq_ok_iff {σ ρ α : Type} {self : Scanner σ ρ} {state : σ}
    {done : ρ × ℕ → α} {final : α → ℕ} (hfinal : ∀ result, final (done result) = result.2) {a : α} :
    (self.loop input (some limit) state index).map done = .ok a ↔
      (self.loop input none state index).map done = .ok a ∧ limit.check (final a) = .ok () := by
  simp only [Except.map_eq_ok_iff]
  refine ⟨?_, ?_⟩
  · rintro ⟨⟨output, stop⟩, hloop, rfl⟩
    obtain ⟨hloop, hcheck⟩ := Scanner.loop_limit_eq_ok_iff.mp hloop
    exact ⟨⟨_, hloop, rfl⟩, (hfinal _).symm ▸ hcheck⟩
  · rintro ⟨⟨⟨output, stop⟩, hloop, rfl⟩, hcheck⟩
    rw [hfinal] at hcheck
    exact ⟨_, Scanner.loop_limit_eq_ok_iff.mpr ⟨hloop, hcheck⟩, rfl⟩

theorem lt_of_map_loop {σ ρ α : Type} {self : Scanner σ ρ} {state : σ} {done : ρ × ℕ → α}
    {a : α} (h : (self.loop input none state index).map done = .ok a) (final : α → ℕ)
    (hfinal : ∀ result, final (done result) = result.2) : index < final a := by
  obtain ⟨⟨output, stop⟩, hloop, rfl⟩ := Except.map_eq_ok_iff.mp h
  obtain ⟨hlt, -⟩ := Scanner.le_of_loop hloop
  rw [hfinal]
  exact lt_of_le_of_lt (Nat.le_add_right _ _) hlt

theorem Limit.check_of_le {next : ℕ} (hle : next ≤ stop) (h : limit.check stop = .ok ()) :
    limit.check next = .ok () :=
  Limit.check_eq_ok_iff.mpr (hle.trans (Limit.check_eq_ok_iff.mp h))

theorem stringWith_limit_eq_ok_iff {span : StringSpan} :
    stringWith input index (some limit) = .ok (span, stop) ↔
      stringWith input index none = .ok (span, stop) ∧ limit.check stop = .ok () := by
  unfold stringWith
  cases byteAt input index 0x22 with
  | none => simp
  | some start =>
    dsimp only
    have hloop := @map_loop_limit_eq_ok_iff input limit start _ _ _ strings .new
      (spanAt input start) Prod.snd (fun _ => rfl) (span, stop)
    rw [Except.bind_eq_ok_iff, Except.bind_eq_ok_iff, stringLoop_eq_loop, stringLoop_eq_loop, hloop]
    refine ⟨fun ⟨_, _, h, hcheck⟩ => ⟨⟨(), rfl, h⟩, hcheck⟩, fun ⟨⟨_, _, h⟩, hcheck⟩ => ?_⟩
    have hlt := lt_of_map_loop h Prod.snd fun _ => rfl
    exact ⟨(), Limit.check_of_le hlt.le hcheck, h, hcheck⟩

theorem groupAt_limit_eq_ok_iff {first : UInt8} {depth : Depth} :
    groupAt input index first (some limit) depth = .ok stop ↔
      groupAt input index first none depth = .ok stop ∧ limit.check stop = .ok () := by
  unfold groupAt
  cases byteAt input index first with
  | none => simp
  | some next =>
    dsimp only
    have hloop := fun nesting => @map_loop_limit_eq_ok_iff input limit next _ _ _ groups nesting
      Prod.snd id (fun _ => rfl) stop
    simp only [Except.bind_eq_ok_iff, groupLoop_eq_loop, hloop]
    refine ⟨?_, ?_⟩
    · rintro ⟨_, _, nesting, hstart, h, hcheck⟩
      exact ⟨⟨(), rfl, nesting, hstart, h⟩, hcheck⟩
    · rintro ⟨⟨_, _, nesting, hstart, h⟩, hcheck⟩
      have hlt := lt_of_map_loop h id fun _ => rfl
      exact ⟨(), Limit.check_of_le hlt.le hcheck, nesting, hstart, h, hcheck⟩

theorem le_of_atomLoop {integer : Bool} {atom : Atom} {next : ℕ} {kind : ValueKind}
    (h : atomLoop integer input none atom next = .ok (kind, stop)) : next ≤ stop := by
  have hfinish : ∀ (atom : Atom) (next : ℕ), atom.finish.map (·, next) = .ok (kind, stop) →
      next = stop := by
    intro atom next h
    obtain ⟨found, -, heq⟩ := Except.map_eq_ok_iff.mp h
    exact congrArg Prod.snd heq
  fun_induction atomLoop integer input none atom next with
  | case1 atom next hnext hdelimiter => exact (hfinish _ _ h).le
  | case2 => cases h
  | case3 => cases h
  | case4 => cases h
  | case5 atom next hnext hdelimiter following hstep hinteger hcheck ih =>
    exact (Nat.le_succ next).trans (ih h)
  | case6 atom next hnext => exact (hfinish _ _ h).le

theorem atomLoop_limit_eq_ok_iff {atom : Atom} {next : ℕ} {kind : ValueKind}
    (hnext : limit.check next = .ok ()) :
    atomLoop false input (some limit) atom next = .ok (kind, stop) ↔
      atomLoop false input none atom next = .ok (kind, stop) ∧ limit.check stop = .ok () := by
  have hfinish : ∀ (atom : Atom) (next : ℕ), limit.check next = .ok () →
      (atom.finish.map (·, next) = .ok (kind, stop) ↔
        atom.finish.map (·, next) = .ok (kind, stop) ∧ limit.check stop = .ok ()) := by
    intro atom next hnext
    refine ⟨fun h => ⟨h, ?_⟩, And.left⟩
    obtain ⟨found, -, heq⟩ := Except.map_eq_ok_iff.mp h
    obtain rfl : next = stop := congrArg Prod.snd heq
    exact hnext
  generalize hlength : input.length - next = n
  induction n using Nat.strong_induction_on generalizing atom next with
  | _ n ih =>
    rw [atomLoop, atomLoop]
    by_cases hlt : next < input.length
    · simp only [dif_pos hlt]
      split_ifs with hdelimiter
      · exact hfinish atom next hnext
      · cases atom.step input[next] with
        | error error => simp
        | ok following =>
          dsimp only [checkLimit]
          simp only [Bool.false_and, Bool.false_eq_true, if_false]
          obtain hbehind | ⟨hbehind, hover⟩ := limit.check_cases (next + 1)
          · rw [hbehind]
            exact ih _ (by omega) hbehind rfl
          · rw [hbehind]
            refine iff_of_false (by simp) ?_
            rintro ⟨h, hcheck⟩
            have hle := le_of_atomLoop h
            have hwithin := Limit.check_eq_ok_iff.mp hcheck
            omega
    · simp only [dif_neg hlt]
      exact hfinish atom next hnext

theorem valueWith_limit_eq_ok_iff {depth : Depth} (hstart : limit.start = index) :
    valueWith input index (some limit) depth = .ok stop ↔
      valueWith input index none depth = .ok stop ∧ limit.check stop = .ok () := by
  have hsnd : ∀ {α : Type} {bounded unbounded : Except Error (α × ℕ)},
      (∀ a stop, bounded = .ok (a, stop) ↔ unbounded = .ok (a, stop) ∧ limit.check stop = .ok ()) →
      (bounded.map Prod.snd = .ok stop ↔
        unbounded.map Prod.snd = .ok stop ∧ limit.check stop = .ok ()) := by
    intro α bounded unbounded h
    simp only [Except.map_eq_ok_iff]
    refine ⟨?_, ?_⟩
    · rintro ⟨⟨a, final⟩, hbounded, rfl⟩
      obtain ⟨hunbounded, hcheck⟩ := (h a final).mp hbounded
      exact ⟨⟨_, hunbounded, rfl⟩, hcheck⟩
    · rintro ⟨⟨⟨a, final⟩, hunbounded, rfl⟩, hcheck⟩
      exact ⟨_, (h a final).mpr ⟨hunbounded, hcheck⟩, rfl⟩
  unfold valueWith
  cases input[index]? with
  | none => simp
  | some first =>
    dsimp only
    split_ifs
    · exact hsnd fun _ _ => stringWith_limit_eq_ok_iff
    · exact groupAt_limit_eq_ok_iff
    · refine hsnd fun kind stop => ?_
      have hfirst : limit.check index = .ok () := Limit.check_eq_ok_iff.mpr (by omega)
      simp only [atomWith, Except.bind_eq_ok_iff, atomLoop_limit_eq_ok_iff hfirst]
      refine ⟨?_, ?_⟩
      · rintro ⟨atom, hnew, h, hcheck⟩
        exact ⟨⟨atom, hnew, h⟩, hcheck⟩
      · rintro ⟨⟨atom, hnew, h⟩, hcheck⟩
        exact ⟨atom, hnew, h, hcheck⟩
    · simp

end Limited

/-! ## Inline values -/

namespace Unchecked

/-- `string_with`, with its slices as the source takes them. -/
def stringWith (input : Bytes) (index : ℕ) (limit : Option Limit) :
    Option (Except Error (StringSpan × ℕ)) :=
  match byteAt input index 0x22 with
  | none => some (.error .invalid)
  | some start =>
    match checkLimit limit start with
    | .error error => some (.error error)
    | .ok () =>
      match strings.loopUnchecked input limit .new start with
      | none => none
      | some (.error error) => some (.error error)
      | some (.ok (removed, final)) =>
        let next := final - 1
        (getUnchecked input start next).map fun content =>
          .ok (⟨content, start, next, removed ≠ 0, next - start - removed⟩, next + 1)

/-- `group_at`, with its slices as the source takes them. -/
def groupAt (input : Bytes) (index : ℕ) (first : UInt8) (limit : Option Limit) (depth : Depth) :
    Option (Except Error ℕ) :=
  match byteAt input index first with
  | none => some (.error .invalid)
  | some next =>
    match checkLimit limit next with
    | .error error => some (.error error)
    | .ok () =>
      match Nesting.startDepth first depth with
      | .error error => some (.error error)
      | .ok nesting => (groups.loopUnchecked input limit nesting next).map (·.map Prod.snd)

/-- `value_with`, with its slices as the source takes them. -/
def valueWith (input : Bytes) (index : ℕ) (limit : Option Limit) (depth : Depth) :
    Option (Except Error ℕ) :=
  match input[index]? with
  | none => some (.error .invalid)
  | some first =>
    if first = 0x22 then (stringWith input index limit).map (·.map Prod.snd)
    else if first = 0x7b ∨ first = 0x5b then groupAt input index first limit depth
    else if first = 0x74 ∨ first = 0x66 ∨ first = 0x6e ∨ first = 0x2d ∨ isDigit first then
      some ((atomWith false input index first limit).map Prod.snd)
    else some (.error .invalid)

variable {input : Bytes} {limit : Option Limit} {index : ℕ}

theorem stringWith_eq :
    stringWith input index limit = some (Json.stringWith input index limit) := by
  unfold stringWith Json.stringWith
  cases hbyte : byteAt input index 0x22 with
  | none => rfl
  | some start =>
    dsimp only
    cases hcheck : checkLimit limit start with
    | error error => rfl
    | ok done =>
      dsimp only
      rw [Scanner.loopUnchecked_eq hcheck]
      show _ = some (stringLoop input limit start .new start)
      rw [stringLoop_eq_loop]
      cases hloop : strings.loop input limit .new start with
      | error error => rfl
      | ok result =>
        obtain ⟨removed, final⟩ := result
        obtain ⟨hlt, hle, -⟩ := Scanner.le_of_loop hloop
        have hslice : getUnchecked input start (final - 1) =
            some ((input.take (final - 1)).drop start) := if_pos ⟨by omega, by omega⟩
        have hfinal : final - 1 + 1 = final := by omega
        dsimp only
        rw [hslice, hfinal]
        rfl

theorem groupAt_eq {first : UInt8} {depth : Depth} :
    groupAt input index first limit depth = some (Json.groupAt input index first limit depth) := by
  unfold groupAt Json.groupAt
  cases hbyte : byteAt input index first with
  | none => rfl
  | some next =>
    dsimp only
    cases hcheck : checkLimit limit next with
    | error error => rfl
    | ok done =>
      cases Nesting.startDepth first depth with
      | error error => rfl
      | ok nesting =>
        dsimp only
        rw [Scanner.loopUnchecked_eq hcheck]
        show _ = some (groupLoop input limit nesting next)
        rw [groupLoop_eq_loop]
        rfl

theorem valueWith_eq {depth : Depth} :
    valueWith input index limit depth = some (Json.valueWith input index limit depth) := by
  unfold valueWith Json.valueWith
  rw [stringWith_eq]
  cases input[index]? with
  | none => rfl
  | some first =>
    dsimp only
    rw [groupAt_eq]
    split_ifs <;> rfl

end Unchecked

/-- `inline_plain`: the index that the caller is left with, and the content of the string. It is
`none` where a slice would not be a range of the input. -/
def inlinePlain (input : Bytes) (index : ℕ) (capacity : UInt8) :
    Option (ℕ × Except Error Bytes) :=
  let limit : Limit := ⟨index, capacity.toNat, 2⟩
  match Unchecked.stringWith input index (some limit) with
  | none => none
  | some (.error error) => some (index, .error error)
  | some (.ok (span, stop)) =>
    if span.escaped then some (index, .error .invalid) else some (stop, .ok span.content)

/-- `inline_depth`: the index that the caller is left with, and the range of the value. -/
def inlineDepth (input : Bytes) (index : ℕ) (capacity : UInt8) (depth : Depth) :
    Option (ℕ × Except Error (ℕ × ℕ)) :=
  let start := wsAt input index
  let limit : Limit := ⟨start, capacity.toNat, 0⟩
  match Unchecked.valueWith input start (some limit) depth with
  | none => none
  | some (.error error) => some (index, .error error)
  | some (.ok stop) => some (stop, .ok (start, stop))

theorem length_content_of_stringWith {input : Bytes} {index stop : ℕ} {span : StringSpan}
    (h : stringWith input index none = .ok (span, stop)) :
    stop = index + (span.content.length + 2) := by
  have hbyte : input[index]? = some 0x22 := by
    by_contra hne
    simp [stringWith, byteAt, hne] at h
  obtain ⟨-, hdrop⟩ := drop_of_getElem? hbyte
  have hsnd : (stringWith input index none).map Prod.snd = .ok stop := by
    rw [h]
    rfl
  obtain ⟨content, chars, rest, hcontent, htail, rfl⟩ := (stringWith_eq_ok_iff hdrop).mp hsnd
  obtain ⟨span', hspan, rfl, -⟩ := stringWith_of_content hcontent (htail ▸ hdrop)
  rw [hspan] at h
  rw [(Prod.mk.inj (Except.ok.inj h)).1]

/-- Inline values. No slice that is not checked begins behind its end. A string fits exactly where
the scan without a limit reads a string without escapes whose content is not more than the capacity,
and a value where that scan reads a value that is not more than the capacity; the content and the
range are those of that scan. Where they do not fit, the index of the caller is what it was. -/
theorem inline_bounded :
    (∀ (input : Bytes) (index : ℕ) (capacity : UInt8), ∃ next result,
      inlinePlain input index capacity = some (next, result) ∧
      (∀ stop content, next = stop ∧ result = .ok content ↔
        ∃ span, stringWith input index none = .ok (span, stop) ∧ span.escaped = false ∧
          span.content = content ∧ content.length ≤ capacity.toNat) ∧
      ∀ error, result = .error error → next = index) ∧
    ∀ (input : Bytes) (index : ℕ) (capacity : UInt8) (depth : Depth), ∃ next result,
      inlineDepth input index capacity depth = some (next, result) ∧
      (∀ start stop, next = stop ∧ result = .ok (start, stop) ↔
        skipDepth input index depth = .ok stop ∧ start = wsAt input index ∧
          stop - start ≤ capacity.toNat) ∧
      ∀ error, result = .error error → next = index := by
  refine ⟨fun input index capacity => ?_, fun input index capacity depth => ?_⟩
  · unfold inlinePlain
    dsimp only
    rw [Unchecked.stringWith_eq]
    have hlimit := fun span stop => @stringWith_limit_eq_ok_iff input ⟨index, capacity.toNat, 2⟩
      index stop span
    -- with a limit the end of the string is tested, of which two bytes are its quotes
    have hfits : ∀ {span stop}, stringWith input index none = .ok (span, stop) →
        (Limit.check ⟨index, capacity.toNat, 2⟩ stop = .ok () ↔
          span.content.length ≤ capacity.toNat) := by
      intro span stop h
      rw [length_content_of_stringWith h, Limit.check_eq_ok_iff]
      dsimp only
      omega
    cases hbounded : stringWith input index (some ⟨index, capacity.toNat, 2⟩) with
    | error error =>
      refine ⟨index, .error error, rfl, fun stop content => iff_of_false (by simp) ?_,
        fun _ _ => rfl⟩
      rintro ⟨span, h, -, rfl, hlength⟩
      have hok := (hlimit span stop).mpr ⟨h, (hfits h).mpr hlength⟩
      rw [hbounded] at hok
      cases hok
    | ok result =>
      obtain ⟨span, stop⟩ := result
      obtain ⟨h, hcheck⟩ := (hlimit span stop).mp hbounded
      have hlength := (hfits h).mp hcheck
      cases hescaped : span.escaped with
      | true =>
        refine ⟨index, .error .invalid, by simp [hescaped], fun stop content =>
          iff_of_false (by simp) ?_, fun _ _ => rfl⟩
        rintro ⟨span', h', hescaped', -⟩
        obtain ⟨rfl, -⟩ := Prod.mk.inj (Except.ok.inj (h.symm.trans h'))
        rw [hescaped] at hescaped'
        cases hescaped'
      | false =>
        refine ⟨stop, .ok span.content, by simp [hescaped], fun stop' content => ⟨?_, ?_⟩, by simp⟩
        · rintro ⟨rfl, hcontent⟩
          exact ⟨span, h, hescaped, Except.ok.inj hcontent, Except.ok.inj hcontent ▸ hlength⟩
        · rintro ⟨span', h', -, rfl, -⟩
          obtain ⟨rfl, rfl⟩ := Prod.mk.inj (Except.ok.inj (h.symm.trans h'))
          exact ⟨rfl, rfl⟩
  · unfold inlineDepth skipDepth
    dsimp only
    rw [Unchecked.valueWith_eq]
    have hlimit := fun stop => @valueWith_limit_eq_ok_iff input
      ⟨wsAt input index, capacity.toNat, 0⟩ (wsAt input index) stop depth rfl
    have hfits : ∀ stop, Limit.check ⟨wsAt input index, capacity.toNat, 0⟩ stop = .ok () ↔
        stop - wsAt input index ≤ capacity.toNat := by
      intro stop
      rw [Limit.check_eq_ok_iff]
      dsimp only
      omega
    cases hbounded : valueWith input (wsAt input index)
        (some ⟨wsAt input index, capacity.toNat, 0⟩) depth with
    | error error =>
      refine ⟨index, .error error, rfl, fun start stop => iff_of_false (by simp) ?_, fun _ _ => rfl⟩
      rintro ⟨h, rfl, hlength⟩
      have hok := (hlimit stop).mpr ⟨h, (hfits stop).mpr hlength⟩
      rw [hbounded] at hok
      cases hok
    | ok stop =>
      obtain ⟨h, hcheck⟩ := (hlimit stop).mp hbounded
      refine ⟨stop, .ok (wsAt input index, stop), rfl, fun start stop' => ⟨?_, ?_⟩, by simp⟩
      · rintro ⟨rfl, hrange⟩
        obtain ⟨rfl, -⟩ := Prod.mk.inj (Except.ok.inj hrange)
        exact ⟨h, rfl, (hfits stop).mp hcheck⟩
      · rintro ⟨h', rfl, -⟩
        obtain rfl := Except.ok.inj (h.symm.trans h')
        exact ⟨rfl, rfl⟩

/-- A string of two bytes fits two bytes, and does not fit one. -/
theorem inline_bounded_two :
    (∃ span, stringWith [0x22, 0x61, 0x62, 0x22] 0 none = .ok (span, 4) ∧ span.escaped = false ∧
      span.content = [0x61, 0x62] ∧ [0x61, 0x62].length ≤ UInt8.toNat 2) ∧
    inlinePlain [0x22, 0x61, 0x62, 0x22] 0 1 = some (0, .error .token) := by
  have hfits : inlinePlain [0x22, 0x61, 0x62, 0x22] 0 2 = some (4, .ok [0x61, 0x62]) := by
    decide +kernel
  have hlong : inlinePlain [0x22, 0x61, 0x62, 0x22] 0 1 = some (0, .error .token) := by
    decide +kernel
  obtain ⟨next, result, heq, hiff, -⟩ := inline_bounded.1 [0x22, 0x61, 0x62, 0x22] 0 2
  obtain ⟨rfl, rfl⟩ := Prod.mk.inj (Option.some.inj (heq.symm.trans hfits))
  obtain ⟨next', result', heq', -, herror⟩ := inline_bounded.1 [0x22, 0x61, 0x62, 0x22] 0 1
  obtain ⟨rfl, rfl⟩ := Prod.mk.inj (Option.some.inj (heq'.symm.trans hlong))
  exact ⟨(hiff 4 _).mp ⟨rfl, rfl⟩, herror .token rfl ▸ hlong⟩

end Sark.Json
