import Mathlib.Tactic

/-!
# Runs that are merged

Some elements of a list carry an amount. Neighbours that do are replaced by one element with the sum
of their amounts, so that of every longest run one element is left. A program that keeps a list in
this form merges an element that it appends with the last one.

* `Runs.coalesce_concat`: appending to the merged list is merging the longer list.
* `Runs.isChain_coalesce`: no two neighbours are left to be merged.
-/

namespace Runs

variable {α M : Type*} [AddSemigroup M] (amount : α → Option M) (total : M → α)

/-- An element in front of a merged list. -/
def front (a : α) : List α → List α
  | [] => [a]
  | b :: rest =>
    match amount a, amount b with
    | some m, some n => total (m + n) :: rest
    | _, _ => a :: b :: rest

/-- An element behind a merged list. -/
def back (merged : List α) (a : α) : List α :=
  match merged.getLast?.bind amount, amount a with
  | some m, some n => merged.dropLast ++ [total (m + n)]
  | _, _ => merged ++ [a]

/-- Every longest run of amounts is replaced by their sum. -/
def coalesce : List α → List α
  | [] => []
  | a :: rest => front amount total a (coalesce rest)

variable {amount total} {a b : α} {m n : M} {rest merged : List α}

theorem front_of_some (ha : amount a = some m) (hb : amount b = some n) :
    front amount total a (b :: rest) = total (m + n) :: rest := by
  simp only [front, ha, hb]

theorem front_of_none (h : amount a = none ∨ amount b = none) :
    front amount total a (b :: rest) = a :: b :: rest := by
  rcases h with h | h
  · simp only [front, h]
  · cases ha : amount a with
    | none => simp only [front, ha]
    | some m => simp only [front, ha, h]

theorem back_of_some (hb : amount b = some m) (ha : amount a = some n) :
    back amount total (merged ++ [b]) a = merged ++ [total (m + n)] := by
  simp only [back, List.getLast?_append, List.getLast?_singleton, Option.some_or, Option.bind_some,
    hb, ha, List.dropLast_concat]

theorem back_of_none (h : merged.getLast?.bind amount = none ∨ amount a = none) :
    back amount total merged a = merged ++ [a] := by
  rcases h with h | h
  · simp only [back, h]
  · cases hb : merged.getLast?.bind amount with
    | none => simp only [back, hb]
    | some m => simp only [back, hb, h]

theorem back_cons_cons : back amount total (b :: a :: rest) = fun c =>
    b :: back amount total (a :: rest) c := by
  funext c
  have hlast : (b :: a :: rest).getLast? = (a :: rest).getLast? := List.getLast?_cons_cons
  rw [back, back, hlast]
  cases (a :: rest).getLast?.bind amount with
  | none => rfl
  | some m =>
    cases amount c with
    | none => rfl
    | some n => rfl

theorem front_back (htotal : ∀ m, amount (total m) = some m) (c : α) :
    front amount total c (back amount total merged a) =
      back amount total (front amount total c merged) a := by
  rcases merged with - | ⟨b, - | ⟨d, rest⟩⟩
  · cases hc : amount c with
    | none => simp [front, back, hc]
    | some m =>
      cases ha : amount a with
      | none => simp [front, back, hc, ha]
      | some n => simp [front, back, hc, ha]
  · -- all three may be one
    cases hb : amount b with
    | none => simp [front, back, hb]
    | some m =>
      cases hc : amount c with
      | none =>
        cases ha : amount a with
        | none => simp [front, back, hb, hc, ha]
        | some n => simp [front, back, hb, hc, ha, htotal]
      | some n =>
        cases ha : amount a with
        | none => simp [front, back, hb, hc, ha, htotal]
        | some k => simp [front, back, hb, hc, ha, htotal, add_assoc]
  · rw [back_cons_cons]
    by_cases h : amount c = none ∨ amount b = none
    · rw [front_of_none h, front_of_none h, back_cons_cons, back_cons_cons]
    · obtain ⟨m, hc⟩ := Option.ne_none_iff_exists'.mp (not_or.mp h).1
      obtain ⟨n, hb⟩ := Option.ne_none_iff_exists'.mp (not_or.mp h).2
      rw [front_of_some hc hb, front_of_some hc hb, back_cons_cons]

theorem coalesce_concat (htotal : ∀ m, amount (total m) = some m) (l : List α) (a : α) :
    coalesce amount total (l ++ [a]) = back amount total (coalesce amount total l) a := by
  induction l with
  | nil =>
    have hnone : ([] : List α).getLast?.bind amount = none := rfl
    exact (back_of_none (.inl hnone)).symm
  | cons c l ih => rw [List.cons_append, coalesce, ih, front_back htotal, coalesce]

/-- Of two neighbours at most one has an amount. -/
def Apart (amount : α → Option M) (a b : α) : Prop :=
  amount a = none ∨ amount b = none

theorem isChain_front (h : merged.IsChain (Apart amount)) :
    (front amount total a merged).IsChain (Apart amount) := by
  rcases merged with - | ⟨b, rest⟩
  · exact List.isChain_singleton a
  · by_cases hapart : amount a = none ∨ amount b = none
    · rw [front_of_none hapart]
      exact List.isChain_cons_cons.mpr ⟨hapart, h⟩
    · obtain ⟨m, ha⟩ := Option.ne_none_iff_exists'.mp (not_or.mp hapart).1
      obtain ⟨n, hb⟩ := Option.ne_none_iff_exists'.mp (not_or.mp hapart).2
      rw [front_of_some ha hb]
      rcases rest with - | ⟨d, rest⟩
      · exact List.isChain_singleton _
      · obtain ⟨hbd, hrest⟩ := List.isChain_cons_cons.mp h
        have hd : amount d = none := hbd.resolve_left (by simp [hb])
        exact List.isChain_cons_cons.mpr ⟨.inr hd, hrest⟩

theorem isChain_coalesce (l : List α) :
    (coalesce amount total l).IsChain (Apart amount) := by
  induction l with
  | nil => exact List.isChain_nil
  | cons a l ih => exact isChain_front ih

end Runs
