import Mathlib.Data.List.Basic
import Mathlib.Logic.Function.Basic
import Mathlib.Order.Basic

/-!
# Hash directories

A directory retains positions of a ledger under hashes, and finds the positions that may have a
hash. What it contains is a partial function from positions to hashes; the operations are lawful
for the positions that a directory was made for.

* `Directory.Lawful`: what the owner of a directory relies on.
* `Directory.Listed.lawful`: a list of members is a lawful directory.
* `Least`, `least_best`: the candidate of the smallest rank, among candidates in any order.
-/

namespace Sark

/-- The operations of a directory. -/
class Directory (D : Type) where
  insert : D → ℕ → ℕ → D
  remove : D → ℕ → ℕ → D
  clear : D → D
  /-- The positions that may have a hash. -/
  scan : D → ℕ → List ℕ

namespace Directory

/-- The laws of a directory for `count` positions, where `keys` is what it contains. A search finds
every position with the hash, and none that is not a member. -/
structure Lawful (D : Type) [Directory D] (count : ℕ) (keys : D → ℕ → Option ℕ) : Prop where
  insert : ∀ directory hash position, position < count → keys directory position = none →
    keys (insert directory hash position) =
      Function.update (keys directory) position (some hash)
  remove : ∀ directory hash position, keys directory position = some hash →
    keys (remove directory hash position) = Function.update (keys directory) position none
  clear : ∀ directory, keys (clear directory) = fun _ => none
  scan_complete : ∀ directory hash position, keys directory position = some hash →
    position ∈ scan directory hash
  scan_sound : ∀ directory hash position, position ∈ scan directory hash →
    keys directory position ≠ none

/-! ## A directory that is a list -/

/-- The members of a directory, with their hashes. -/
structure Listed where
  members : List (ℕ × ℕ)
  deriving DecidableEq, Repr

namespace Listed

/-- The hash of a position. -/
def keys (directory : Listed) (position : ℕ) : Option ℕ :=
  directory.members.lookup position

instance : Directory Listed where
  insert directory hash position := ⟨(position, hash) :: directory.members⟩
  remove directory _ position := ⟨directory.members.filter fun found => found.1 ≠ position⟩
  clear _ := ⟨[]⟩
  scan directory hash :=
    (directory.members.map Prod.fst).filter fun position => directory.keys position = some hash

theorem lookup_filter (members : List (ℕ × ℕ)) (position other : ℕ) :
    (members.filter fun found => found.1 ≠ position).lookup other =
      if other = position then none else members.lookup other := by
  induction members with
  | nil => simp
  | cons found members ih =>
    rw [List.filter_cons, List.lookup_cons]
    by_cases hfound : found.1 = position
    · rw [if_neg (by simpa using hfound), ih]
      split
      · rfl
      · next hother =>
        rw [← hfound] at hother
        rw [beq_false_of_ne hother]
    · rw [if_pos (by simpa using hfound), List.lookup_cons, ih]
      by_cases hother : other = found.1
      · subst hother
        simp [hfound]
      · rw [beq_false_of_ne hother]

theorem lawful (count : ℕ) : Lawful Listed count keys where
  insert directory hash position _ _ := by
    funext other
    show List.lookup other ((position, hash) :: directory.members) = _
    rw [List.lookup_cons, Function.update_apply]
    by_cases hother : other = position
    · simp [hother]
    · rw [beq_false_of_ne hother, if_neg hother]
      rfl
  remove directory hash position _ := by
    funext other
    rw [Function.update_apply]
    exact lookup_filter directory.members position other
  clear directory := rfl
  scan_complete directory hash position hkey := by
    refine List.mem_filter.mpr ⟨?_, by simpa using hkey⟩
    obtain ⟨before, after, hmembers, -⟩ := List.lookup_eq_some_iff.mp hkey
    simp [hmembers]
  scan_sound directory hash position hmem := by
    have hkey := (List.mem_filter.mp hmem).2
    simp [of_decide_eq_true hkey]

end Listed

end Directory

/-! ## The least candidate -/

section Least

variable {I : Type}

/-- The candidate of the smallest rank: a later one counts only if its rank is smaller. -/
def best (current : Option (ℕ × I)) : List (ℕ × I) → Option (ℕ × I)
  | [] => current
  | found :: rest =>
    if current.all fun least => decide (found.1 < least.1) then best (some found) rest
    else best current rest

/-- The first of `count` places that has a result, and that result. -/
def Least (count : ℕ) (place : ℕ → Option I) (result : Option I) : Prop :=
  (result = none ∧ ∀ index < count, place index = none) ∨
    ∃ index < count, result = place index ∧ place index ≠ none ∧
      ∀ before < index, place before = none

theorem Least.unique {count : ℕ} {place : ℕ → Option I} {result other : Option I}
    (h : Least count place result) (h' : Least count place other) : result = other := by
  rcases h with ⟨rfl, hnone⟩ | ⟨index, hlt, rfl, hsome, hbefore⟩
  · rcases h' with ⟨rfl, -⟩ | ⟨index, hlt, -, hsome, -⟩
    · rfl
    · exact absurd (hnone index hlt) hsome
  · rcases h' with ⟨-, hnone⟩ | ⟨index', -, rfl, hsome', hbefore'⟩
    · exact absurd (hnone index hlt) hsome
    · rcases Nat.lt_trichotomy index index' with h | h | h
      · exact absurd (hbefore' index h) hsome
      · rw [h]
      · exact absurd (hbefore index' h) hsome'

theorem Least.eq_some {count : ℕ} {place : ℕ → Option I} {result : I}
    (h : Least count place (some result)) : ∃ index < count, place index = some result := by
  rcases h with ⟨hnone, -⟩ | ⟨index, hlt, hresult, -⟩
  · cases hnone
  · exact ⟨index, hlt, hresult.symm⟩

theorem Least.append {count more : ℕ} {place rest : ℕ → Option I} {first second : Option I}
    (h : Least count place first) (h' : Least more rest second) :
    Least (count + more) (fun index => if index < count then place index else rest (index - count))
      (first.or second) := by
  rcases h with ⟨rfl, hnone⟩ | ⟨index, hlt, hfirst, hsome, hbefore⟩
  · rw [Option.none_or]
    rcases h' with ⟨rfl, hnone'⟩ | ⟨index, hlt, rfl, hsome, hbefore⟩
    · refine .inl ⟨rfl, fun index hlt => ?_⟩
      simp only
      split
      · next hless => exact hnone index hless
      · exact hnone' _ (by omega)
    · have hplace : ¬ count + index < count := by omega
      refine .inr ⟨count + index, by omega, ?_, ?_, fun before hless => ?_⟩
      · simp only [if_neg hplace, Nat.add_sub_cancel_left]
      · simpa only [if_neg hplace, Nat.add_sub_cancel_left] using hsome
      · simp only
        split
        · next hcount => exact hnone before hcount
        · exact hbefore _ (by omega)
  · obtain ⟨found, hfound⟩ := Option.ne_none_iff_exists'.mp hsome
    refine .inr ⟨index, by omega, ?_, ?_, fun before hless => ?_⟩
    · simp only [if_pos hlt, hfirst, hfound, Option.some_or]
    · simpa only [if_pos hlt] using hsome
    · simp only [if_pos (show before < count by omega)]
      exact hbefore before hless

theorem Least.congr {count : ℕ} {place other : ℕ → Option I} {result : Option I}
    (h : Least count place result) (heq : ∀ index < count, place index = other index) :
    Least count other result := by
  rcases h with ⟨rfl, hnone⟩ | ⟨index, hlt, rfl, hsome, hbefore⟩
  · exact .inl ⟨rfl, fun index hlt => (heq index hlt).symm.trans (hnone index hlt)⟩
  · refine .inr ⟨index, hlt, heq index hlt, heq index hlt ▸ hsome, fun before hless => ?_⟩
    rw [← heq before (by omega)]
    exact hbefore before hless

theorem Least.restrict {count less : ℕ} {place : ℕ → Option I} {result : Option I}
    (h : Least count place result) (hle : less ≤ count)
    (hnone : ∀ index < count, less ≤ index → place index = none) : Least less place result := by
  rcases h with ⟨rfl, hall⟩ | ⟨index, hlt, hresult, hsome, hbefore⟩
  · exact .inl ⟨rfl, fun index hless => hall index (by omega)⟩
  · refine .inr ⟨index, ?_, hresult, hsome, hbefore⟩
    by_contra hge
    exact hsome (hnone index hlt (by omega))

/-- The best candidate is one of them, and no other has a smaller rank. -/
theorem best_spec (current : Option (ℕ × I)) (items : List (ℕ × I)) :
    (best current items = none ∧ current = none ∧ items = []) ∨
      ∃ least, best current items = some least ∧ (least ∈ current ∨ least ∈ items) ∧
        (∀ found ∈ current, least.1 ≤ found.1) ∧ ∀ found ∈ items, least.1 ≤ found.1 := by
  induction items generalizing current with
  | nil =>
    cases current with
    | none => exact .inl ⟨rfl, rfl, rfl⟩
    | some least =>
      refine .inr ⟨least, rfl, .inl rfl, fun found hfound => ?_, nofun⟩
      obtain rfl := Option.mem_some_iff.mp hfound
      exact Nat.le_refl _
  | cons item items ih =>
    unfold best
    split
    · next hless =>
      rcases ih (some item) with ⟨-, hnone, -⟩ | ⟨least, hbest, hmem, hle, hrest⟩
      · cases hnone
      · have hle := hle item rfl
        refine .inr ⟨least, hbest, .inr ?_, ?_, List.forall_mem_cons.mpr ⟨hle, hrest⟩⟩
        · rcases hmem with hmem | hmem
          · rw [Option.mem_some_iff.mp hmem]
            exact List.mem_cons_self
          · exact List.mem_cons_of_mem item hmem
        · rintro found rfl
          simp only [Option.all_some, decide_eq_true_eq] at hless
          omega
    · next hless =>
      -- The current candidate is not larger than the next one.
      obtain ⟨kept, rfl⟩ : ∃ kept, current = some kept := by
        cases current with
        | none => exact absurd rfl hless
        | some kept => exact ⟨kept, rfl⟩
      rcases ih (some kept) with ⟨-, hnone, -⟩ | ⟨least, hbest, hmem, hle, hrest⟩
      · cases hnone
      · refine .inr ⟨least, hbest, hmem.imp_right (List.mem_cons_of_mem item), hle,
          List.forall_mem_cons.mpr ⟨?_, hrest⟩⟩
        have hkept := hle kept rfl
        simp only [Option.all_some, decide_eq_true_eq] at hless
        omega

/-- The best of all results of `count` places is the first one. -/
theorem least_best {count : ℕ} {place : ℕ → Option I} {items : List (ℕ × I)}
    (hitems : ∀ found ∈ items, found.1 < count ∧ place found.1 = some found.2)
    (hall : ∀ index < count, ∀ result, place index = some result → (index, result) ∈ items) :
    Least count place ((best none items).map Prod.snd) := by
  have hevery : ∀ index < count, place index ≠ none → ∃ found ∈ items, found.1 = index := by
    intro index hlt hne
    obtain ⟨result, hresult⟩ := Option.ne_none_iff_exists'.mp hne
    exact ⟨_, hall index hlt result hresult, rfl⟩
  rcases best_spec none items with ⟨hbest, -, rfl⟩ | ⟨least, hbest, hmem, -, hle⟩
  · rw [hbest]
    refine .inl ⟨rfl, fun index hlt => ?_⟩
    by_contra hne
    obtain ⟨found, hfound, -⟩ := hevery index hlt hne
    cases hfound
  · rw [hbest]
    obtain ⟨hlt, hplace⟩ := hitems least (hmem.resolve_left (by simp))
    refine .inr ⟨least.1, hlt, hplace.symm, by simp [hplace], fun before hless => ?_⟩
    by_contra hne
    obtain ⟨found, hfound, hrank⟩ := hevery before (by omega) hne
    have hfirst := hle found hfound
    omega

theorem least_findIdx {α : Type} (items : List α) (p : α → Bool) :
    Least items.length (fun index => items[index]?.bind fun item => if p item then some index else none)
      (items.findIdx? p) := by
  cases hfound : items.findIdx? p with
  | none =>
    refine .inl ⟨rfl, fun index hlt => ?_⟩
    have hnot := List.findIdx?_eq_none_iff.mp hfound _ (List.getElem_mem hlt)
    simp only [List.getElem?_eq_getElem hlt, Option.bind_some, hnot, Bool.false_eq_true, if_false]
  | some index =>
    obtain ⟨hlt, hp, hbefore⟩ := List.findIdx?_eq_some_iff_getElem.mp hfound
    refine .inr ⟨index, hlt, ?_, ?_, fun before hless => ?_⟩
    · simp only [List.getElem?_eq_getElem hlt, Option.bind_some, hp, if_true]
    · simp only [List.getElem?_eq_getElem hlt, Option.bind_some, hp, if_true]
      exact Option.some_ne_none index
    · have hnot := hbefore before hless
      simp only [List.getElem?_eq_getElem (show before < items.length by omega), Option.bind_some]
      exact if_neg hnot

end Least

end Sark
