import Mathlib.Data.List.Basic

/-!
# Runs with steps in between

A system takes steps of two kinds: visible ones, which come in a given order, and others, which
may come at any time between them. A triple `Leads` says what a list of visible steps leads to,
whatever other steps come before, between and after them, and which invariant holds all the way.

* `Leads.nil`, `Leads.one`, `Leads.append`, `Leads.weaken`: the rules of the triple.
-/

namespace Sark

variable {σ ε : Type*} (step : σ → ε → σ) (visible : ε → Bool)

/-- A predicate that the other steps keep. -/
def Stable (P : σ → Prop) : Prop :=
  ∀ state event, visible event = false → P state → P (step state event)

/-- From a state in `P`, every run whose visible steps are `events` ends in `Q`, and all its states
are in `I`. -/
def Leads (I P : σ → Prop) (events : List ε) (Q : σ → Prop) : Prop :=
  ∀ state run, P state → run.filter visible = events →
    (∀ start, start <+: run → I (start.foldl step state)) ∧ Q (run.foldl step state)

variable {step visible} {I P Q R : σ → Prop} {events : List ε}

theorem Stable.foldl (h : Stable step visible P) {state : σ} {run : List ε}
    (hrun : run.filter visible = []) (hstate : P state) : P (run.foldl step state) := by
  induction run generalizing state with
  | nil => exact hstate
  | cons event run ih =>
    rw [List.filter_eq_nil_iff] at hrun
    have hevent : visible event = false := by simpa using hrun event List.mem_cons_self
    refine ih ?_ (h state event hevent hstate)
    exact List.filter_eq_nil_iff.mpr fun other hother => hrun other (List.mem_cons_of_mem _ hother)

namespace Leads

theorem nil (hstable : Stable step visible P) (hI : ∀ state, P state → I state) :
    Leads step visible I P [] P := by
  intro state run hstate hrun
  refine ⟨fun start hstart => hI _ (hstable.foldl ?_ hstate), hstable.foldl hrun hstate⟩
  obtain ⟨rest, rfl⟩ := hstart
  exact (List.append_eq_nil_iff.mp ((List.filter_append ..).symm.trans hrun)).1

theorem weaken {P' Q' : σ → Prop} (h : Leads step visible I P events Q)
    (hP : ∀ state, P' state → P state) (hQ : ∀ state, Q state → Q' state) :
    Leads step visible I P' events Q' := by
  intro state run hstate hrun
  obtain ⟨hI, hend⟩ := h state run (hP state hstate) hrun
  exact ⟨hI, hQ _ hend⟩

theorem append {more : List ε} (hfirst : Leads step visible I P events R)
    (hsecond : Leads step visible I R more Q) : Leads step visible I P (events ++ more) Q := by
  intro state run hstate hrun
  obtain ⟨before, after, rfl, hbefore, hafter⟩ := List.filter_eq_append_iff.mp hrun
  obtain ⟨hI, hmid⟩ := hfirst state before hstate hbefore
  obtain ⟨hI', hend⟩ := hsecond _ after hmid hafter
  rw [List.foldl_append]
  refine ⟨fun start hstart => ?_, hend⟩
  -- A start of the run ends in the first part, or covers it.
  rcases List.prefix_or_prefix_of_prefix hstart (List.prefix_append before after) with
    hshort | ⟨rest, rfl⟩
  · exact hI start hshort
  · rw [List.foldl_append]
    exact hI' rest ((List.prefix_append_right_inj before).mp hstart)

theorem one {event : ε} (hP : Stable step visible P) (hQ : Stable step visible Q)
    (hPI : ∀ state, P state → I state) (hQI : ∀ state, Q state → I state)
    (hstep : ∀ state, P state → Q (step state event)) : Leads step visible I P [event] Q := by
  intro state run hstate hrun
  obtain ⟨before, after, rfl, hbefore, -, hafter⟩ := List.filter_eq_cons_iff.mp hrun
  have hbefore : before.filter visible = [] := List.filter_eq_nil_iff.mpr hbefore
  obtain ⟨hI, hmid⟩ := nil hP hPI state before hstate hbefore
  obtain ⟨hI', hend⟩ := nil hQ hQI _ after (hstep _ hmid) hafter
  rw [List.foldl_append, List.foldl_cons]
  refine ⟨fun start hstart => ?_, hend⟩
  rcases List.prefix_or_prefix_of_prefix hstart (List.prefix_append before (event :: after)) with
    hshort | ⟨rest, rfl⟩
  · exact hI start hshort
  · have hrest := (List.prefix_append_right_inj before).mp hstart
    rw [List.foldl_append]
    cases rest with
    | nil => exact hPI _ hmid
    | cons first rest =>
      obtain ⟨rfl, htail⟩ := List.cons_prefix_cons.mp hrest
      exact hI' rest htail

theorem always (hkeep : ∀ state event, P state → P (step state event))
    (hI : ∀ state, P state → I state) (events : List ε) : Leads step visible I P events P := by
  have hrun : ∀ (run : List ε) (state : σ), P state → P (run.foldl step state) := by
    intro run
    induction run with
    | nil => exact fun _ h => h
    | cons event run ih => exact fun state h => ih _ (hkeep state event h)
  exact fun state run hstate _ => ⟨fun start _ => hI _ (hrun start state hstate),
    hrun run state hstate⟩

end Leads

end Sark
