import Sark.Client.Retry

/-!
# The attempts of a call

A request is sent again only as its policy allows. The state of the loop tracks how many attempts
began and whether any of them may have entered egress, and each retry is judged by that.

* `State.retryAfter_eq`: when a failed attempt is retried.
* `response_guarded`, `stream_guarded`: what holds of the attempts of a hop.
* `call_guarded`: what holds of a call with its redirects.
-/

namespace Sark.Client

/-! ## One retry -/

/-- The methods that are idempotent. -/
def Method.isIdempotent : Method → Bool
  | .get | .head | .options | .trace | .put | .delete => true
  | _ => false

/-- The attempts that the policy allows a method. -/
def Policy.limit (policy : Policy) (method : Method) : Count :=
  if method.isIdempotent then policy.idempotentAttempts else policy.nonIdempotentAttempts

def Mode.isIdempotent : Mode → Bool
  | .idempotentBefore | .idempotentCommitted => true
  | .nonIdempotentBefore | .nonIdempotentCommitted => false

@[simp]
theorem Mode.safety_observe (mode : Mode) (safety : Safety) :
    (mode.observe safety).safety = mode.safety.merge safety := by
  cases mode <;> cases safety <;> rfl

@[simp]
theorem Mode.isIdempotent_observe (mode : Mode) (safety : Safety) :
    (mode.observe safety).isIdempotent = mode.isIdempotent := by
  cases mode <;> cases safety <;> rfl

theorem Mode.observe_merge (mode : Mode) (safety : Safety) :
    mode.observe (safety.merge mode.safety) = mode.observe safety := by
  cases mode <;> cases safety <;> rfl

theorem Safety.merge_merge (left right : Safety) :
    left.merge (right.merge left) = left.merge right := by
  cases left <;> cases right <;> rfl

theorem Safety.merge_comm (left right : Safety) : left.merge right = right.merge left := by
  cases left <;> cases right <;> rfl

theorem Safety.beforeSubmit_merge (safety : Safety) :
    Safety.beforeSubmit.merge safety = safety := by
  cases safety <;> rfl

theorem Safety.merge_eq_beforeSubmit_iff {left right : Safety} :
    left.merge right = .beforeSubmit ↔ left = .beforeSubmit ∧ right = .beforeSubmit := by
  cases left <;> cases right <;> decide

namespace State

/-- The state after a failure was observed. -/
def observed (state : State) (failure : Failure) : State :=
  { state with mode := state.mode.observe failure.safety }

theorem retryAfter_eq (state : State) (failure : Failure) :
    state.retryAfter failure =
      if state.attempts.val < state.limit.val ∧
          (state.observed failure).allowed failure.cause = true then
        .ok ⟨state.observed failure⟩
      else .error (state.observed failure) := by
  simp only [retryAfter, observed, ge_iff_le, Bool.not_eq_true']
  by_cases hlimit : state.limit.val ≤ state.attempts.val
  · simp [hlimit, Nat.not_lt.mpr hlimit]
  · simp only [hlimit, if_false, Nat.not_le.mp hlimit, true_and]
    split_ifs <;> simp_all

theorem retryAfter_finish (state : State) (failure : Failure) :
    state.retryAfter (state.finish failure) = state.retryAfter failure := by
  simp only [retryAfter, finish, Failure.new, Failure.attempted, Mode.observe_merge]

theorem finish_observed (state : State) (failure : Failure) :
    (state.observed failure).finish failure = state.finish failure := by
  simp only [finish, observed, Failure.new, Failure.attempted, Mode.safety_observe,
    Safety.merge_merge]

theorem class_of_allowed {state : State} {cause : Error} (h : state.allowed cause = true) :
    Class.of cause ≠ .never ∧
      (state.mode.isIdempotent = false →
        state.mode.safety = .beforeSubmit ∧
        (Class.of cause = .transient → ∃ error, cause = .connect error) ∧
        (Class.of cause = .stale → state.reconnectOnStaleNonIdempotent = true)) := by
  unfold allowed at h
  cases hmode : state.mode with
  | idempotentBefore =>
    rw [hmode] at h
    exact ⟨by simpa using h, nofun⟩
  | idempotentCommitted =>
    rw [hmode] at h
    exact ⟨by simpa using h, nofun⟩
  | nonIdempotentCommitted => simp [hmode] at h
  | nonIdempotentBefore =>
    simp only [hmode] at h
    cases hclass : Class.of cause with
    | never => simp [hclass] at h
    | stale =>
      simp only [hclass] at h
      exact ⟨by decide, fun _ => ⟨rfl, nofun, fun _ => h⟩⟩
    | transient =>
      simp only [hclass] at h
      refine ⟨by decide, fun _ => ⟨rfl, fun _ => ?_, nofun⟩⟩
      split at h
      · exact ⟨_, rfl⟩
      · simp at h

end State

/-! ## One hop -/

/-- The loop that `response` and `stream` have in common. -/
def attemptAll (state : State) : List (Verdict × Option Elapsed) → List Failure × Ending
  | [] => ([], .begun)
  | (verdict, sleep) :: rest =>
    match verdict with
    | .done => ([], .delivered state.attempts)
    | .final failure => ([failure], .failed (state.finish failure))
    | .retry failure =>
      match state.retryAfter failure with
      | .error _ => ([failure], .failed (state.finish failure))
      | .ok backoff =>
        match sleep with
        | some elapsed => ([failure], .failed (backoff.expired elapsed))
        | none =>
          let next := attemptAll backoff.start rest
          (failure :: next.1, next.2)

theorem response_eq_attemptAll (state : State) (attempts : List (Attempt × Option Elapsed)) :
    response state attempts = attemptAll state (attempts.map (Prod.map Attempt.verdict id)) := by
  induction attempts generalizing state with
  | nil => rfl
  | cons attempt attempts ih =>
    obtain ⟨attempt, sleep⟩ := attempt
    simp only [response, attemptAll, List.map_cons, Prod.map_apply, id_eq]
    cases attempt.verdict with
    | done => rfl
    | final failure => rfl
    | retry failure =>
      simp only [State.retryAfter_finish]
      cases state.retryAfter failure with
      | error observed => rfl
      | ok backoff =>
        cases sleep with
        | some elapsed => rfl
        | none => simp only [ih]

theorem stream_eq_attemptAll (state : State) (attempts : List (Dispatch × Option Elapsed)) :
    stream state attempts = attemptAll state (attempts.map (Prod.map Dispatch.verdict id)) := by
  induction attempts generalizing state with
  | nil => rfl
  | cons attempt attempts ih =>
    obtain ⟨attempt, sleep⟩ := attempt
    simp only [stream, attemptAll, List.map_cons, Prod.map_apply, id_eq]
    cases attempt.verdict with
    | done => rfl
    | final failure => rfl
    | retry failure =>
      simp only [State.retryAfter_eq]
      split_ifs
      · cases sleep with
        | some elapsed => rfl
        | none => simp only [ih]
      · simp only [State.finish_observed]

/-- The safety of what came before and of some attempts. -/
def joined (prior : Safety) (failures : List Failure) : Safety :=
  failures.foldl (fun safety failure => safety.merge failure.safety) prior

theorem joined_append (prior : Safety) (failures : List Failure) (failure : Failure) :
    joined prior (failures ++ [failure]) = (joined prior failures).merge failure.safety := by
  simp [joined]

theorem joined_eq_beforeSubmit_iff {prior : Safety} {failures : List Failure} :
    joined prior failures = .beforeSubmit ↔
      prior = .beforeSubmit ∧ ∀ failure ∈ failures, failure.safety = .beforeSubmit := by
  induction failures generalizing prior with
  | nil => simp [joined]
  | cons failure failures ih =>
    have hcons : joined prior (failure :: failures) = joined (prior.merge failure.safety) failures :=
      rfl
    rw [hcons, ih, Safety.merge_eq_beforeSubmit_iff]
    simp [and_assoc]

/-- The attempts that were begun. -/
def attemptsBegun (failures : List Failure) : Ending → ℕ
  | .failed _ => failures.length
  | .begun => failures.length + 1
  | .delivered _ => failures.length + 1

/-- The last of these failures is one after which a request may be sent again. -/
structure MayRetry (policy : Policy) (method : Method) (prior : Safety) (failures : List Failure)
    (failure : Failure) : Prop where
  notForbidden : Class.of failure.cause ≠ .never
  notCommitted : method.isIdempotent = false →
    prior = .beforeSubmit ∧ ∀ earlier ∈ failures, earlier.safety = .beforeSubmit
  onlyConnect : method.isIdempotent = false → Class.of failure.cause = .transient →
    ∃ error, failure.cause = .connect error
  onlyStale : method.isIdempotent = false → Class.of failure.cause = .stale →
    policy.reconnectOnStaleNonIdempotent = true

/-- What holds of the attempts of a hop. -/
structure Guarded (policy : Policy) (method : Method) (prior : Safety) (failures : List Failure)
    (ending : Ending) : Prop where
  /-- No more attempts begin than the method may have. -/
  limited : attemptsBegun failures ending ≤ (policy.limit method).val
  /-- An attempt that is followed by another may be retried. -/
  retried : ∀ (i : ℕ) failure, failures[i]? = some failure → i + 1 < attemptsBegun failures ending →
    MayRetry policy method prior (failures.take (i + 1)) failure
  /-- The reported failure has the safety of all attempts and their number. -/
  reported : ∀ failure, ending = .failed failure →
    failure.safety = joined prior failures ∧ failure.attempt.val = failures.length
  /-- A response has the number of its attempt. -/
  answered : ∀ attempt, ending = .delivered attempt → attempt.val = failures.length + 1

/-- A state of the loop knows what the attempts so far have shown. -/
structure Tracks (policy : Policy) (method : Method) (prior : Safety) (state : State)
    (failures : List Failure) : Prop where
  reconnect : state.reconnectOnStaleNonIdempotent = policy.reconnectOnStaleNonIdempotent
  limit : state.limit = policy.limit method
  idempotent : state.mode.isIdempotent = method.isIdempotent
  safety : state.mode.safety = joined prior failures
  attempts : state.attempts.val = failures.length + 1
  within : state.attempts.val ≤ state.limit.val
  retried : ∀ (i : ℕ) failure, failures[i]? = some failure →
    MayRetry policy method prior (failures.take (i + 1)) failure

theorem tracks_new (policy : Policy) (method : Method) (prior : Safety) :
    Tracks policy method prior ((State.new policy method).withPrior prior) [] where
  reconnect := rfl
  limit := by cases method <;> rfl
  idempotent := by
    rw [State.withPrior, Mode.isIdempotent_observe]
    cases method <;> rfl
  safety := by
    rw [State.withPrior, Mode.safety_observe]
    cases method <;> cases prior <;> rfl
  attempts := rfl
  within := ((State.new policy method).withPrior prior).limit.property.1
  retried := by simp

namespace Tracks

variable {policy : Policy} {method : Method} {prior : Safety} {state : State}
  {failures : List Failure} {failure : Failure}

theorem finish (htracks : Tracks policy method prior state failures) :
    (state.finish failure).safety = joined prior (failures ++ [failure]) ∧
      (state.finish failure).attempt.val = (failures ++ [failure]).length := by
  refine ⟨?_, ?_⟩
  · rw [joined_append, ← htracks.safety, Safety.merge_comm]
    rfl
  · rw [List.length_append, List.length_singleton]
    exact htracks.attempts

theorem mayRetry (htracks : Tracks policy method prior state failures)
    (hallowed : (state.observed failure).allowed failure.cause = true) :
    MayRetry policy method prior (failures ++ [failure]) failure := by
  obtain ⟨hnever, hnon⟩ := State.class_of_allowed hallowed
  have hidempotent : (state.observed failure).mode.isIdempotent = method.isIdempotent := by
    rw [State.observed, Mode.isIdempotent_observe, htracks.idempotent]
  have hsafety : (state.observed failure).mode.safety = joined prior (failures ++ [failure]) := by
    rw [State.observed, Mode.safety_observe, htracks.safety, joined_append]
  rw [hidempotent, hsafety] at hnon
  refine ⟨hnever, ?_, ?_, ?_⟩
  · intro h
    exact joined_eq_beforeSubmit_iff.mp (hnon h).1
  · intro h
    exact (hnon h).2.1
  · intro h hstale
    rw [← htracks.reconnect]
    exact (hnon h).2.2 hstale

theorem retried_append (htracks : Tracks policy method prior state failures)
    (hmay : MayRetry policy method prior (failures ++ [failure]) failure) (i : ℕ)
    (other : Failure) (h : (failures ++ [failure])[i]? = some other) :
    MayRetry policy method prior ((failures ++ [failure]).take (i + 1)) other := by
  by_cases hi : i < failures.length
  · rw [List.getElem?_append_left hi] at h
    rw [List.take_append_of_le_length (by omega)]
    exact htracks.retried i other h
  · have hlt := (List.getElem?_eq_some_iff.mp h).1
    have heq : i = failures.length := by
      simp only [List.length_append, List.length_singleton] at hlt
      omega
    subst heq
    rw [List.getElem?_append_right le_rfl, Nat.sub_self, List.getElem?_cons_zero,
      Option.some.injEq] at h
    subst h
    rwa [List.take_of_length_le (by simp)]

theorem start (htracks : Tracks policy method prior state failures)
    (hlimit : state.attempts.val < state.limit.val)
    (hallowed : (state.observed failure).allowed failure.cause = true) :
    Tracks policy method prior (Backoff.start ⟨state.observed failure⟩) (failures ++ [failure]) where
  reconnect := htracks.reconnect
  limit := htracks.limit
  idempotent := by
    rw [← htracks.idempotent]
    exact Mode.isIdempotent_observe _ _
  safety := by
    rw [joined_append, ← htracks.safety]
    exact Mode.safety_observe _ _
  attempts := by
    -- the counter is below a limit of one byte, so it does not saturate
    have hbyte := state.limit.property.2
    have hattempts := htracks.attempts
    simp only [Backoff.start, Count.saturatingAdd, State.observed, List.length_append,
      List.length_singleton]
    rw [Nat.min_eq_left (by omega), hattempts]
  within := by
    have hbyte := state.limit.property.2
    simp only [Backoff.start, Count.saturatingAdd, State.observed]
    rw [Nat.min_eq_left (by omega)]
    omega
  retried := htracks.retried_append (htracks.mayRetry hallowed)

theorem guarded_failed (htracks : Tracks policy method prior state failures) {report : Failure}
    (hreport : report.safety = joined prior (failures ++ [failure]) ∧
      report.attempt.val = (failures ++ [failure]).length) :
    Guarded policy method prior (failures ++ [failure]) (.failed report) where
  limited := by
    have hattempts := htracks.attempts
    have hwithin := htracks.within
    rw [← htracks.limit]
    simp only [attemptsBegun, List.length_append, List.length_singleton]
    omega
  retried := by
    intro i other h hi
    simp only [attemptsBegun, List.length_append, List.length_singleton] at hi
    have hlt : i < failures.length := by omega
    rw [List.getElem?_append_left hlt] at h
    rw [List.take_append_of_le_length (by omega)]
    exact htracks.retried i other h
  reported := by
    intro other h
    rw [Ending.failed.injEq] at h
    exact h ▸ hreport
  answered := nofun

theorem guarded_begun (htracks : Tracks policy method prior state failures) {ending : Ending}
    (hending : ending = .begun ∨ ending = .delivered state.attempts) :
    Guarded policy method prior failures ending where
  limited := by
    have hattempts := htracks.attempts
    have hwithin := htracks.within
    rw [← htracks.limit]
    rcases hending with rfl | rfl <;> simp only [attemptsBegun] <;> omega
  retried := by
    intro i other h _
    exact htracks.retried i other h
  reported := by
    rintro other rfl
    rcases hending with h | h <;> cases h
  answered := by
    rintro attempt rfl
    rcases hending with h | h
    · cases h
    · rw [Ending.delivered.injEq] at h
      rw [h, htracks.attempts]

end Tracks

theorem attemptAll_guarded {policy : Policy} {method : Method} {prior : Safety} {state : State}
    {failures : List Failure} (htracks : Tracks policy method prior state failures)
    (attempts : List (Verdict × Option Elapsed)) :
    Guarded policy method prior (failures ++ (attemptAll state attempts).1)
      (attemptAll state attempts).2 := by
  induction attempts generalizing state failures with
  | nil =>
    simp only [attemptAll, List.append_nil]
    exact htracks.guarded_begun (.inl rfl)
  | cons attempt attempts ih =>
    obtain ⟨verdict, sleep⟩ := attempt
    cases verdict with
    | done =>
      simp only [attemptAll, List.append_nil]
      exact htracks.guarded_begun (.inr rfl)
    | final failure => exact htracks.guarded_failed htracks.finish
    | retry failure =>
      simp only [attemptAll, State.retryAfter_eq]
      by_cases hretry : state.attempts.val < state.limit.val ∧
          (state.observed failure).allowed failure.cause = true
      · rw [if_pos hretry]
        cases sleep with
        | none =>
          have hnext := ih (htracks.start hretry.1 hretry.2)
          simpa using hnext
        | some elapsed =>
          -- the report of a backoff that expired adds nothing to what was observed
          refine htracks.guarded_failed ⟨?_, ?_⟩
          · rw [joined_append, ← htracks.safety, ← Mode.safety_observe]
            exact Safety.beforeSubmit_merge _
          · exact htracks.finish.2
      · rw [if_neg hretry]
        exact htracks.guarded_failed htracks.finish

/-! ## A call -/

theorem response_guarded (policy : Policy) (method : Method) (prior : Safety)
    (attempts : List (Attempt × Option Elapsed)) :
    Guarded policy method prior
      (response ((State.new policy method).withPrior prior) attempts).1
      (response ((State.new policy method).withPrior prior) attempts).2 := by
  rw [response_eq_attemptAll]
  exact attemptAll_guarded (tracks_new policy method prior) _

theorem stream_guarded (policy : Policy) (method : Method) (prior : Safety)
    (attempts : List (Dispatch × Option Elapsed)) :
    Guarded policy method prior
      (stream ((State.new policy method).withPrior prior) attempts).1
      (stream ((State.new policy method).withPrior prior) attempts).2 := by
  rw [stream_eq_attemptAll]
  exact attemptAll_guarded (tracks_new policy method prior) _

theorem Machine.hasPrior_of_response {request next : Machine} {status : ℕ}
    {follows : Except Error Unit} (h : request.response status follows = .ok (some next)) :
    next.hasPrior = true := by
  unfold Machine.response at h
  split at h
  · cases h
  · split at h
    · cases h
    · cases h
      rfl

theorem Machine.safety_of_response {request : Machine} {status : ℕ} {follows : Except Error Unit}
    {failure : Failure} (h : request.response status follows = .error failure) :
    failure.safety = .possiblyCommitted := by
  unfold Machine.response at h
  split at h
  · cases h
  · split at h
    · cases h
      rfl
    · cases h

theorem hop_guarded (policy : Policy) (request : Machine)
    (attempts : List (Attempt × Option Elapsed)) :
    Guarded policy (hop policy request attempts).method (hop policy request attempts).prior
      (hop policy request attempts).failures (hop policy request attempts).ending :=
  response_guarded policy request.method request.safety attempts

/-- The failure of a call, told from its last hop. -/
def Reports (failure : Failure) (last : Hop) : Prop :=
  failure.attempt.val = attemptsBegun last.failures last.ending ∧
    match last.ending with
    | .delivered _ => failure.safety = .possiblyCommitted
    | _ => failure.safety = joined last.prior last.failures

/-- What holds of the hops of a call and of the failure that it reports. -/
structure CallGuarded (policy : Policy) (request : Machine) (hops : List Hop)
    (failure : Option Failure) : Prop where
  guarded : ∀ hop ∈ hops, Guarded policy hop.method hop.prior hop.failures hop.ending
  /-- Every hop knows that a request came before it. -/
  first : ∀ hop, hops.head? = some hop → hop.prior = request.safety
  later : ∀ hop ∈ hops.tail, hop.prior = .possiblyCommitted
  reported : ∀ report, failure = some report → ∃ last, hops.getLast? = some last ∧
    Reports report last

theorem callGuarded_single (policy : Policy) (request : Machine)
    (attempts : List (Attempt × Option Elapsed)) {failure : Option Failure}
    (hreport : ∀ report, failure = some report → Reports report (hop policy request attempts)) :
    CallGuarded policy request [hop policy request attempts] failure where
  guarded := by
    intro other hother
    rw [List.mem_singleton] at hother
    subst hother
    exact hop_guarded policy request attempts
  first := by
    intro other hother
    rw [List.head?_cons, Option.some.injEq] at hother
    subst hother
    rfl
  later := by simp
  reported := fun report h => ⟨_, rfl, hreport report h⟩

theorem call_guarded (policy : Policy) (request : Machine)
    (script : List (List (Attempt × Option Elapsed) × ℕ × Except Error Unit)) :
    CallGuarded policy request (call policy request script).1 (call policy request script).2 := by
  induction script generalizing request with
  | nil => exact ⟨by simp [call], by simp [call], by simp [call], by simp [call]⟩
  | cons step script ih =>
    obtain ⟨attempts, status, follows⟩ := step
    have hguarded := hop_guarded policy request attempts
    simp only [call]
    split
    · exact callGuarded_single policy request attempts nofun
    · next failure hending =>
      refine callGuarded_single policy request attempts ?_
      rintro report ⟨⟩
      obtain ⟨hsafety, hattempt⟩ := hguarded.reported failure hending
      refine ⟨?_, ?_⟩
      · rw [hending]
        exact hattempt
      · rw [hending]
        exact hsafety
    · next attempt hending =>
      split
      · next failure hresponse =>
        refine callGuarded_single policy request attempts ?_
        rintro report ⟨⟩
        refine ⟨?_, ?_⟩
        · rw [hending]
          exact hguarded.answered attempt hending
        · rw [hending]
          have hsafety := Machine.safety_of_response hresponse
          exact hsafety
      · exact callGuarded_single policy request attempts nofun
      · next next hresponse =>
        have hnext := ih next
        have hprior : next.safety = .possiblyCommitted := by
          rw [Machine.safety, Machine.hasPrior_of_response hresponse, if_pos rfl]
        refine ⟨?_, ?_, ?_, ?_⟩
        · intro other hother
          rcases List.mem_cons.mp hother with rfl | hother
          · exact hguarded
          · exact hnext.guarded other hother
        · intro other hother
          rw [List.head?_cons, Option.some.injEq] at hother
          subst hother
          rfl
        · -- the next hop starts where the redirect left it, and the others follow it
          intro other hother
          rw [List.tail_cons] at hother
          cases hhops : (call policy next script).1 with
          | nil => simp [hhops] at hother
          | cons head tail =>
            rw [hhops] at hother
            rcases List.mem_cons.mp hother with rfl | hother
            · rw [hnext.first other (by rw [hhops]; rfl), hprior]
            · exact hnext.later other (by rw [hhops]; exact hother)
        · intro report hreport
          obtain ⟨last, hlast, hreports⟩ := hnext.reported report hreport
          refine ⟨last, ?_, hreports⟩
          rw [List.getLast?_cons, hlast]
          rfl

/-- The retries of a client are guarded: the attempts of a hop, buffered or streamed, with any
safety of what came before, and the hops of a call with its redirects. -/
theorem retries_guarded (policy : Policy) (method : Method) :
    (∀ prior attempts, Guarded policy method prior
      (response ((State.new policy method).withPrior prior) attempts).1
      (response ((State.new policy method).withPrior prior) attempts).2) ∧
    (∀ prior attempts, Guarded policy method prior
      (stream ((State.new policy method).withPrior prior) attempts).1
      (stream ((State.new policy method).withPrior prior) attempts).2) ∧
    (∀ hasPrior script, CallGuarded policy ⟨method, hasPrior⟩
      (call policy ⟨method, hasPrior⟩ script).1 (call policy ⟨method, hasPrior⟩ script).2) :=
  ⟨response_guarded policy method, stream_guarded policy method,
    fun hasPrior => call_guarded policy ⟨method, hasPrior⟩⟩

end Sark.Client
