import Mathlib.Tactic
import Sark.Library.Fallible

/-!
# Transducers

A machine that reads symbols one by one, may refuse one, and answers each with a few symbols of
output. `run` collects the output, `count` only its length, and `transduce` hands it to a sink that
may refuse it.

* `run_append`: a run over a concatenation is two runs.
* `transduce_of_run`, `transduce_of_run_refused`, `transduce_of_not_run`: a sink for which writing
  twice is writing the concatenation sees a run as a whole.
* `transduce_toOption`: two sinks that take the same symbols take the same output.
-/

/-- A sink for which writing twice is writing the concatenation. Only a sink that is valid, as it is
after every write, is left as it is by writing nothing. -/
structure LawfulSink {τ β ε : Type*} (write : τ → List β → Except ε τ) (valid : τ → Prop) :
    Prop where
  nil : ∀ sink, valid sink → write sink [] = .ok sink
  valid_of_ok : ∀ {sink next output}, write sink output = .ok next → valid next
  append_ok : ∀ {sink next first} (second), write sink first = .ok next →
    write sink (first ++ second) = write next second
  append_error : ∀ {sink error first} (second), write sink first = .error error →
    ∃ error', write sink (first ++ second) = .error error'

namespace LawfulSink

variable {τ β ε : Type*} {write : τ → List β → Except ε τ} {valid : τ → Prop}

theorem foldlM_write (hlaw : LawfulSink write valid) {sink : τ} (hvalid : valid sink)
    {output : List β} :
    (∀ next, write sink output = .ok next →
      output.foldlM (fun sink symbol => write sink [symbol]) sink = .ok next) ∧
    (∀ error, write sink output = .error error →
      ∃ error', output.foldlM (fun sink symbol => write sink [symbol]) sink = .error error') := by
  induction output generalizing sink with
  | nil =>
    have hnil := hlaw.nil sink hvalid
    refine ⟨fun next h => ?_, fun error h => ?_⟩
    · rw [hnil] at h
      simpa [pure, Except.pure] using h
    · rw [hnil] at h
      contradiction
  | cons symbol output ih =>
    rw [List.foldlM_cons, ← List.singleton_append]
    cases hfirst : write sink [symbol] with
    | error error =>
      obtain ⟨error', herror⟩ := hlaw.append_error output hfirst
      refine ⟨fun next h => ?_, fun _ _ => ⟨error, rfl⟩⟩
      rw [herror] at h
      contradiction
    | ok middle =>
      rw [hlaw.append_ok output hfirst]
      exact ih (hlaw.valid_of_ok hfirst)

end LawfulSink

namespace Transducer

/-- Why a transduction stopped. -/
inductive Failure (ε : Type*)
  | invalid
  | sink (cause : ε)
  deriving DecidableEq, Repr

variable {σ α β : Type*} (step : σ → α → Option (σ × List β))

/-- The output for an input, and the state behind it. -/
def run (state : σ) : List α → Option (σ × List β)
  | [] => some (state, [])
  | symbol :: input =>
    match step state symbol with
    | none => none
    | some (next, output) => (run next input).map fun result => (result.1, output ++ result.2)

/-- The length of the output for an input, and the state behind it. -/
def count (state : σ) : List α → Option (σ × ℕ)
  | [] => some (state, 0)
  | symbol :: input =>
    match step state symbol with
    | none => none
    | some (next, output) => (count next input).map fun result => (result.1, output.length + result.2)

/-- The output for an input goes to a sink, symbol by symbol. -/
def transduce {τ ε : Type*} (write : τ → β → Except ε τ) (state : σ) (sink : τ) :
    List α → Except (Failure ε) (σ × τ × ℕ)
  | [] => .ok (state, sink, 0)
  | symbol :: input =>
    match step state symbol with
    | none => .error .invalid
    | some (next, output) =>
      match output.foldlM write sink with
      | .error cause => .error (.sink cause)
      | .ok sink =>
        (transduce write next sink input).map fun result =>
          (result.1, result.2.1, output.length + result.2.2)

variable {step}

theorem run_cons_eq_some_iff {state last : σ} {symbol : α} {input : List α} {output : List β} :
    run step state (symbol :: input) = some (last, output) ↔
      ∃ next first rest, step state symbol = some (next, first) ∧
        run step next input = some (last, rest) ∧ output = first ++ rest := by
  rw [run]
  cases step state symbol with
  | none => simp
  | some result =>
    simp only [Option.map_eq_some_iff, Prod.exists, Prod.mk.injEq, Option.some.injEq]
    constructor
    · rintro ⟨last', rest, hrun, rfl, rfl⟩
      exact ⟨result.1, result.2, rest, rfl, hrun, rfl⟩
    · rintro ⟨next, first, rest, rfl, hrun, rfl⟩
      exact ⟨last, rest, hrun, rfl, rfl⟩

theorem length_of_run {bound : ℕ}
    (hstep : ∀ state symbol next output, step state symbol = some (next, output) →
      output.length ≤ bound)
    {state last : σ} {input : List α} {output : List β}
    (hrun : run step state input = some (last, output)) : output.length ≤ bound * input.length := by
  induction input generalizing state output with
  | nil =>
    obtain ⟨-, rfl⟩ := Prod.mk.inj (Option.some.inj hrun)
    simp
  | cons symbol input ih =>
    obtain ⟨next, first, rest, hfirst, hrest, rfl⟩ := run_cons_eq_some_iff.mp hrun
    have := ih hrest
    have := hstep _ _ _ _ hfirst
    rw [List.length_append, List.length_cons, Nat.mul_succ]
    omega

theorem run_append (state : σ) (first second : List α) :
    run step state (first ++ second) = (run step state first).bind fun result =>
      (run step result.1 second).map fun last => (last.1, result.2 ++ last.2) := by
  induction first generalizing state with
  | nil => simp [run]
  | cons symbol first ih =>
    rw [List.cons_append, run, run]
    cases step state symbol with
    | none => rfl
    | some result =>
      dsimp only
      rw [ih]
      cases run step result.1 first with
      | none => rfl
      | some middle => simp [Function.comp_def]

theorem count_eq (state : σ) (input : List α) :
    count step state input = (run step state input).map fun result => (result.1, result.2.length) := by
  induction input generalizing state with
  | nil => rfl
  | cons symbol input ih =>
    rw [count, run]
    cases step state symbol with
    | none => rfl
    | some result =>
      dsimp only
      rw [ih]
      simp [Function.comp_def]

section Sink

variable {τ ε : Type*} {write : τ → List β → Except ε τ} {valid : τ → Prop}

/-- What is decoded and taken by the sink. -/
theorem transduce_of_run (hlaw : LawfulSink write valid) {state last : σ} {sink next : τ}
    (hvalid : valid sink) {input : List α} {output : List β} (hrun : run step state input = some (last, output))
    (hwrite : write sink output = .ok next) :
    transduce step (fun sink symbol => write sink [symbol]) state sink input =
      .ok (last, next, output.length) := by
  induction input generalizing state sink output with
  | nil =>
    obtain ⟨rfl, rfl⟩ := Prod.mk.inj (Option.some.inj hrun)
    rw [hlaw.nil sink hvalid, Except.ok.injEq] at hwrite
    rw [transduce, hwrite]
    rfl
  | cons symbol input ih =>
    obtain ⟨middle, first, rest, hstep, hrest, rfl⟩ := run_cons_eq_some_iff.mp hrun
    cases hfirst : write sink first with
    | error error =>
      obtain ⟨error', herror⟩ := hlaw.append_error rest hfirst
      rw [herror] at hwrite
      contradiction
    | ok sink' =>
      rw [hlaw.append_ok rest hfirst] at hwrite
      simp only [transduce, hstep, (hlaw.foldlM_write hvalid).1 sink' hfirst,
        ih (hlaw.valid_of_ok hfirst) hrest hwrite, Except.map,
        List.length_append]

/-- What is decoded and refused by the sink. -/
theorem transduce_of_run_refused (hlaw : LawfulSink write valid) {state last : σ} {sink : τ}
    (hvalid : valid sink) {input : List α} {output : List β} {error : ε}
    (hrun : run step state input = some (last, output)) (hwrite : write sink output = .error error) :
    ∃ cause, transduce step (fun sink symbol => write sink [symbol]) state sink input =
      .error (.sink cause) := by
  induction input generalizing state sink output error with
  | nil =>
    obtain ⟨rfl, rfl⟩ := Prod.mk.inj (Option.some.inj hrun)
    rw [hlaw.nil sink hvalid] at hwrite
    contradiction
  | cons symbol input ih =>
    obtain ⟨middle, first, rest, hstep, hrest, rfl⟩ := run_cons_eq_some_iff.mp hrun
    cases hfirst : write sink first with
    | error error' =>
      obtain ⟨cause, hcause⟩ := (hlaw.foldlM_write hvalid).2 error' hfirst
      exact ⟨cause, by simp only [transduce, hstep, hcause]⟩
    | ok sink' =>
      rw [hlaw.append_ok rest hfirst] at hwrite
      obtain ⟨cause, hcause⟩ := ih (hlaw.valid_of_ok hfirst) hrest hwrite
      exact ⟨cause, by simp only [transduce, hstep, (hlaw.foldlM_write hvalid).1 sink' hfirst,
        hcause, Except.map]⟩

/-- What cannot be decoded is never taken. -/
theorem transduce_of_not_run {write : τ → β → Except ε τ} {state : σ} {sink : τ} {input : List α}
    (hrun : run step state input = none) :
    ∃ cause, transduce step write state sink input = .error cause := by
  induction input generalizing state sink with
  | nil => contradiction
  | cons symbol input ih =>
    rw [run] at hrun
    rw [transduce]
    cases hstep : step state symbol with
    | none => exact ⟨.invalid, rfl⟩
    | some result =>
      rw [hstep] at hrun
      cases hfirst : result.2.foldlM write sink with
      | error cause => exact ⟨.sink cause, by simp only [hfirst]⟩
      | ok sink' =>
        obtain ⟨cause, hcause⟩ := @ih result.1 sink' (by simpa using hrun)
        exact ⟨cause, by simp only [hfirst, hcause, Except.map]⟩

end Sink

section Congr

variable {σ α β τ ε ε' : Type*} {step : σ → α → Option (σ × List β)}

theorem foldlM_toOption {write : τ → β → Except ε τ} {write' : τ → β → Except ε' τ}
    (h : ∀ sink symbol, (write sink symbol).toOption = (write' sink symbol).toOption) (sink : τ)
    (output : List β) :
    (output.foldlM write sink).toOption = (output.foldlM write' sink).toOption := by
  induction output generalizing sink with
  | nil => rfl
  | cons symbol output ih =>
    rw [List.foldlM_cons, List.foldlM_cons, Except.toOption_bind, Except.toOption_bind, h]
    exact congrArg _ (funext ih)

theorem toOption_transduce_cons (write : τ → β → Except ε τ) (state : σ) (sink : τ) (symbol : α)
    (input : List α) :
    (transduce step write state sink (symbol :: input)).toOption =
      (step state symbol).bind fun result =>
        (result.2.foldlM write sink).toOption.bind fun sink =>
          (transduce step write result.1 sink input).toOption.map fun last =>
            (last.1, last.2.1, result.2.length + last.2.2) := by
  rw [transduce]
  cases step state symbol with
  | none => rfl
  | some result =>
    dsimp only [Option.bind_some]
    cases result.2.foldlM write sink with
    | error cause => rfl
    | ok sink =>
      dsimp only [Except.toOption_ok, Option.bind_some]
      cases transduce step write result.1 sink input <;> rfl

/-- Two sinks that take the same symbols take the same output. -/
theorem transduce_toOption {write : τ → β → Except ε τ} {write' : τ → β → Except ε' τ}
    (h : ∀ sink symbol, (write sink symbol).toOption = (write' sink symbol).toOption) (state : σ)
    (sink : τ) (input : List α) :
    (transduce step write state sink input).toOption =
      (transduce step write' state sink input).toOption := by
  induction input generalizing state sink with
  | nil => rfl
  | cons symbol input ih =>
    rw [toOption_transduce_cons, toOption_transduce_cons]
    simp only [foldlM_toOption h, ih]

end Congr
end Transducer
