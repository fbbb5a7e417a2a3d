import Sark.Http.H1.Value
import Sark.Library.Separator
import Sark.Library.Splice

/-!
# Dot segments

The segments of a path without its dot segments (`http/src/uri/target/relative`). The code walks
over the segments from the last one and counts the parents that are still to be skipped; the
standard's algorithm consumes the path from the front and shortens what it has already put out.
Both give the same path.

* `segments_eq`: the segments that are kept, as a stack that is filled from the front.
* `removeDotSegments_joined`: the standard's algorithm on a path is that stack.
* `segments_merge`: the segments over two sources are those of the merged path.
* `emit_eq`: what the reverse writer leaves in its buffer.
-/

namespace Sark.Uri

/-! ## The reverse iterator -/

/-- `str::rsplit('/')`. -/
def rsplit (value : Bytes) : List Bytes :=
  (value.splitOn 0x2f).reverse

/-- `str::rsplit_terminator('/')`: an empty piece at the end is skipped. -/
def rsplitTerminator (value : Bytes) : List Bytes :=
  match rsplit value with
  | [] :: rest => rest
  | pieces => pieces

/-- `"."`. -/
def dot : Bytes := [0x2e]

/-- `".."`. -/
def dotDot : Bytes := [0x2e, 0x2e]

/-- The filter of `relative::segments`, with the parents that are still to be skipped. -/
def scan (parents : ℕ) : List Bytes → List Bytes
  | [] => []
  | part :: rest =>
    if part = dot then scan parents rest
    else if part = dotDot then scan (parents + 1) rest
    else if parents ≠ 0 then scan (parents - 1) rest
    else part :: scan parents rest

/-- Whether a path ends with a dot segment. -/
def trailing (path : Bytes) : Bool :=
  match (rsplit path).head? with
  | some part => part = dot || part = dotDot
  | none => false

/-- `relative::segments`: the normalized segments, from the last one on. -/
def segments (front path : Bytes) : List Bytes :=
  (if trailing path then [[]] else []) ++ scan 0 (rsplit path ++ rsplitTerminator front)

/-! ## Writing from the end -/

/-- The loop of `raw::normalize`, on a buffer whose bytes from `stop` on are written. -/
def emitLoop (stop : ℕ) (out : Bytes) : List Bytes → Option Bytes
  | [] => some out
  | segment :: rest =>
    -- both writes lie in the buffer, in front of what is written already
    if segment.length + 1 ≤ stop ∧ stop ≤ out.length then
      let out := splice (stop - segment.length) segment out
      let out := splice (stop - segment.length - 1) [0x2f] out
      emitLoop (stop - segment.length - 1) out rest
    else none

/-- `raw::normalize` into memory that may hold anything. -/
def emit (front : Bytes) (pathLen : ℕ) (parts : List Bytes) (query memory : Bytes) : Option Bytes :=
  if front.length + pathLen + query.length ≤ memory.length then
    let out := splice 0 front memory
    let out := splice (front.length + pathLen) query out
    emitLoop (front.length + pathLen) out parts
  else none

/-- The length that is measured before anything is written. -/
def measure (parts : List Bytes) : ℕ :=
  parts.foldl (fun len part => len + (part.length + 1)) 0

/-! ## The standard's algorithm -/

/-- The output without its last segment and the slash in front of it. -/
def dropSegment (output : Bytes) : Bytes :=
  (output.reverse.dropWhile (· ≠ 0x2f)).tail.reverse

/-- `remove_dot_segments`: the input is consumed from the front. -/
def removeLoop (output : Bytes) (input : Bytes) : Bytes :=
  if hne : input = [] then output
  else if [0x2e, 0x2e, 0x2f] <+: input then removeLoop output (input.drop 3)
  else if [0x2e, 0x2f] <+: input then removeLoop output (input.drop 2)
  else if [0x2f, 0x2e, 0x2f] <+: input then removeLoop output (input.drop 2)
  else if hend : input = [0x2f, 0x2e] then removeLoop output [0x2f]
  else if [0x2f, 0x2e, 0x2e, 0x2f] <+: input then
    removeLoop (dropSegment output) (input.drop 3)
  else if hend : input = [0x2f, 0x2e, 0x2e] then removeLoop (dropSegment output) [0x2f]
  else if input = [0x2e] ∨ input = [0x2e, 0x2e] then output
  else
    -- the first segment, with the slash that it may begin with
    removeLoop (output ++ input.take 1 ++ (input.drop 1).takeWhile (· ≠ 0x2f))
      ((input.drop 1).dropWhile (· ≠ 0x2f))
termination_by input.length
decreasing_by
  all_goals
    have hpos := List.length_pos_iff.mpr hne
    have hrest := List.length_dropWhile_le (· ≠ 0x2f) (input.drop 1)
    simp_all [List.length_drop]
    try omega

/-- `remove_dot_segments`. -/
def removeDotSegments (path : Bytes) : Bytes :=
  removeLoop [] path

/-- `merge`: all but the last segment of the base path, and the reference. An empty base path, which
belongs to an authority, stands for the root. -/
def merge (base reference : Bytes) : Bytes :=
  if base = [] then 0x2f :: reference
  else (base.reverse.dropWhile (· ≠ 0x2f)).reverse ++ reference

/-! ## Lengths -/

theorem measure_eq (parts : List Bytes) : measure parts = (joined 0x2f parts).length := by
  have hfold (len : ℕ) : parts.foldl (fun len part => len + (part.length + 1)) len =
      len + (joined 0x2f parts).length := by
    induction parts generalizing len with
    | nil => rfl
    | cons part parts ih =>
      rw [List.foldl_cons, ih, joined_cons]
      simp only [List.length_append, List.length_cons]
      ring
  rw [measure, hfold, Nat.zero_add]

/-! ## A stack of segments -/

/-- One segment on top of the segments so far. -/
def push (stack : List Bytes) (part : Bytes) : List Bytes :=
  if part = dot then stack
  else if part = dotDot then stack.tail
  else part :: stack

/-- The segments of a path, the last one on top. -/
def fill (stack parts : List Bytes) : List Bytes :=
  parts.foldl push stack

theorem scan_reverse (parents : ℕ) (parts : List Bytes) :
    scan parents parts.reverse = (fill [] parts).drop parents := by
  rw [fill, ← List.foldr_reverse]
  generalize parts.reverse = backwards
  induction backwards generalizing parents with
  | nil => simp [scan]
  | cons part rest ih =>
    rw [scan, List.foldr_cons, push]
    split
    next => exact ih parents
    next =>
      split
      next => rw [ih, List.drop_tail]
      next =>
        cases parents with
        | zero => rw [if_neg (by simp), ih]; rfl
        | succ parents => rw [if_pos (by simp), ih]; rfl

/-- The directories of a path in front of its last slash. -/
def directories (front : Bytes) : List Bytes :=
  (rsplitTerminator front).reverse

/-- Whether a list of segments ends with a dot segment. -/
def EndsWithDots (parts : List Bytes) : Prop :=
  parts.getLast? = some dot ∨ parts.getLast? = some dotDot

instance (parts : List Bytes) : Decidable (EndsWithDots parts) :=
  inferInstanceAs (Decidable (_ ∨ _))

theorem trailing_iff (path : Bytes) : trailing path = true ↔ EndsWithDots (path.splitOn 0x2f) := by
  rw [trailing, rsplit, EndsWithDots, List.head?_reverse]
  cases (path.splitOn 0x2f).getLast? <;> simp

/-- The normalized segments of a path: those of the stack, and an empty one where the path ends with
a dot segment. -/
def normalized (stack parts : List Bytes) : List Bytes :=
  (if EndsWithDots parts then [[]] else []) ++ fill stack parts

/-- The segments that the reverse scan yields are those of the stack. -/
theorem segments_eq (front path : Bytes) :
    segments front path = normalized (fill [] (directories front)) (path.splitOn 0x2f) := by
  have hpieces : rsplit path ++ rsplitTerminator front =
      (directories front ++ path.splitOn 0x2f).reverse := by
    rw [List.reverse_append, directories, List.reverse_reverse, rsplit]
  rw [segments, hpieces, scan_reverse, List.drop_zero, normalized, fill, List.foldl_append, fill,
    fill]
  simp only [trailing_iff]

/-! ## The standard's algorithm on a stack -/

theorem prefix_joined_iff {part lead : Bytes} {rest : List Bytes} (hpart : 0x2f ∉ part)
    (hlead : 0x2f ∉ lead) :
    0x2f :: (lead ++ [0x2f]) <+: joined 0x2f (part :: rest) ↔ part = lead ∧ rest ≠ [] := by
  rw [joined_cons, List.cons_append, List.cons_prefix_cons]
  simp only [true_and]
  constructor
  · rintro ⟨behind, h⟩
    rw [List.append_assoc, List.singleton_append] at h
    cases rest with
    | nil =>
      rw [joined_nil, List.append_nil] at h
      exact absurd (h ▸ by simp) hpart
    | cons second rest =>
      obtain ⟨rfl, -⟩ := eq_of_append_cons_eq hlead hpart h
      exact ⟨rfl, by simp⟩
  · rintro ⟨rfl, hne⟩
    obtain ⟨second, rest, rfl⟩ := List.exists_cons_of_ne_nil hne
    exact ⟨second ++ joined 0x2f rest, by simp⟩

theorem joined_eq_iff {part lead : Bytes} {rest : List Bytes} (hlead : 0x2f ∉ lead) :
    joined 0x2f (part :: rest) = 0x2f :: lead ↔ part = lead ∧ rest = [] := by
  rw [joined_cons, List.cons_append, List.cons.injEq]
  simp only [true_and]
  constructor
  · intro h
    cases rest with
    | nil => exact ⟨by simpa using h, rfl⟩
    | cons second rest => exact absurd (h ▸ by simp) hlead
  · rintro ⟨rfl, rfl⟩
    simp

theorem dropSegment_joined {stack : List Bytes} (h : ∀ part ∈ stack, 0x2f ∉ part) :
    dropSegment (joined 0x2f stack.reverse) = joined 0x2f stack.tail.reverse := by
  cases stack with
  | nil => rfl
  | cons part stack =>
    have hpart : 0x2f ∉ part := h part List.mem_cons_self
    rw [List.reverse_cons, joined_append, joined_cons, joined_nil, List.append_nil, dropSegment,
      List.reverse_append, List.reverse_cons, List.append_assoc, List.dropWhile_append_of_pos]
    · simp
    · intro byte hbyte
      simpa using ne_of_mem_of_not_mem (List.mem_reverse.mp hbyte) hpart

theorem fill_cons (stack : List Bytes) (part : Bytes) (rest : List Bytes) :
    fill stack (part :: rest) = fill (push stack part) rest := rfl

theorem endsWithDots_cons {part : Bytes} {rest : List Bytes} (hne : rest ≠ []) :
    EndsWithDots (part :: rest) ↔ EndsWithDots rest := by
  rw [EndsWithDots, EndsWithDots, List.getLast?_cons_of_ne_nil hne]

theorem normalized_cons {stack : List Bytes} {part : Bytes} {rest : List Bytes} (hne : rest ≠ []) :
    normalized stack (part :: rest) = normalized (push stack part) rest := by
  simp only [normalized, fill_cons, endsWithDots_cons hne]

theorem normalized_dots {stack : List Bytes} {part : Bytes} (h : part = dot ∨ part = dotDot) :
    normalized stack [part] = [] :: push stack part := by
  rw [normalized, if_pos]
  · rfl
  · simpa [EndsWithDots] using h

theorem normalized_last {stack : List Bytes} {part : Bytes} (hdot : part ≠ dot)
    (hdotDot : part ≠ dotDot) : normalized stack [part] = part :: stack := by
  rw [normalized, if_neg (by simp [EndsWithDots, hdot, hdotDot]), fill, List.foldl_cons,
    List.foldl_nil, push, if_neg hdot, if_neg hdotDot]
  rfl

theorem removeLoop_slash (output : Bytes) : removeLoop output [0x2f] = output ++ [0x2f] := by
  rw [removeLoop, dif_neg (by decide), if_neg (by decide), if_neg (by decide), if_neg (by decide),
    dif_neg (by decide), if_neg (by decide), dif_neg (by decide), if_neg (by decide),
    show List.take 1 ([0x2f] : Bytes) = [0x2f] from rfl,
    show List.drop 1 ([0x2f] : Bytes) = [] from rfl, List.takeWhile_nil, List.dropWhile_nil, List.append_nil, removeLoop, dif_pos rfl]

/-- The standard's algorithm on whole segments is the stack. -/
theorem removeLoop_joined {stack parts : List Bytes} (hne : parts ≠ [])
    (hparts : ∀ part ∈ parts, 0x2f ∉ part) (hstack : ∀ part ∈ stack, 0x2f ∉ part) :
    removeLoop (joined 0x2f stack.reverse) (joined 0x2f parts) =
      joined 0x2f (normalized stack parts).reverse := by
  induction parts generalizing stack with
  | nil => exact absurd rfl hne
  | cons part rest ih =>
    have hpart : 0x2f ∉ part := hparts part List.mem_cons_self
    have hrest : ∀ part ∈ rest, 0x2f ∉ part := fun part hmem =>
      hparts part (List.mem_cons_of_mem _ hmem)
    have htail : ∀ part ∈ stack.tail, 0x2f ∉ part := fun part hmem =>
      hstack part (List.mem_of_mem_tail hmem)
    -- the input begins with a slash, and a dot segment in front is a whole one
    have hfirst : ∀ lead : Bytes, ¬0x2e :: lead <+: joined 0x2f (part :: rest) := by
      intro lead h
      rw [joined_cons, List.cons_append, List.cons_prefix_cons] at h
      exact absurd h.1 (by decide)
    have hone := @prefix_joined_iff part dot rest hpart (by decide)
    have htwo := @prefix_joined_iff part dotDot rest hpart (by decide)
    have hlastOne := @joined_eq_iff part dot rest (by decide)
    have hlastTwo := @joined_eq_iff part dotDot rest (by decide)
    have hsingle : ¬(joined 0x2f (part :: rest) = [0x2e] ∨
        joined 0x2f (part :: rest) = [0x2e, 0x2e]) := by
      rintro (h | h)
      · exact hfirst [] (h ▸ List.prefix_rfl)
      · exact hfirst [0x2e] (h ▸ List.prefix_rfl)
    simp only [dot, dotDot, List.cons_append, List.nil_append] at hone htwo hlastOne hlastTwo
    rw [removeLoop, dif_neg (joined_ne_nil (by simp)), if_neg (hfirst _), if_neg (hfirst _)]
    by_cases hdot : part = dot
    · subst hdot
      by_cases hnil : rest = []
      · subst hnil
        rw [if_neg (fun h => (hone.mp h).2 rfl), dif_pos (hlastOne.mpr ⟨rfl, rfl⟩), removeLoop_slash,
          normalized_dots (.inl rfl), push, if_pos rfl]
        simp
      · rw [if_pos (hone.mpr ⟨rfl, hnil⟩), normalized_cons hnil, push, if_pos rfl,
          ← ih hnil hrest hstack]
        rfl
    · rw [if_neg (fun h => hdot (hone.mp h).1), dif_neg (fun h => hdot (hlastOne.mp h).1)]
      by_cases hdotDot : part = dotDot
      · subst hdotDot
        by_cases hnil : rest = []
        · subst hnil
          rw [if_neg (fun h => (htwo.mp h).2 rfl), dif_pos (hlastTwo.mpr ⟨rfl, rfl⟩), removeLoop_slash,
            dropSegment_joined hstack, normalized_dots (.inr rfl), push, if_neg hdot, if_pos rfl]
          simp
        · rw [if_pos (htwo.mpr ⟨rfl, hnil⟩), normalized_cons hnil, push, if_neg hdot, if_pos rfl,
            dropSegment_joined hstack, ← ih hnil hrest htail]
          rfl
      · rw [if_neg (fun h => hdotDot (htwo.mp h).1), dif_neg (fun h => hdotDot (hlastTwo.mp h).1),
          if_neg hsingle]
        have hpush : push stack part = part :: stack := by rw [push, if_neg hdot, if_neg hdotDot]
        have hmem : ∀ byte ∈ part, decide (byte ≠ 0x2f) = true := fun byte hbyte => by
          simpa using ne_of_mem_of_not_mem hbyte hpart
        have hbehind : (joined 0x2f rest).takeWhile (fun byte => decide (byte ≠ 0x2f)) = [] ∧
            (joined 0x2f rest).dropWhile (fun byte => decide (byte ≠ 0x2f)) = joined 0x2f rest := by
          cases rest <;> simp
        rw [joined_cons, List.cons_append, List.take_succ_cons, List.take_zero,
          List.drop_succ_cons, List.drop_zero, List.takeWhile_append_of_pos hmem,
          List.dropWhile_append_of_pos hmem, hbehind.1, hbehind.2, List.append_nil]
        have houtput : joined 0x2f stack.reverse ++ [0x2f] ++ part =
            joined 0x2f (part :: stack).reverse := by simp
        rw [houtput]
        by_cases hnil : rest = []
        · subst hnil
          rw [joined_nil, removeLoop, dif_pos rfl, normalized_last hdot hdotDot]
        · rw [normalized_cons hnil, hpush]
          refine ih hnil hrest ?_
          exact List.forall_mem_cons.mpr ⟨hpart, hstack⟩

/-- The standard's algorithm on an absolute path. -/
theorem removeDotSegments_joined {parts : List Bytes} (hne : parts ≠ [])
    (hparts : ∀ part ∈ parts, 0x2f ∉ part) :
    removeDotSegments (joined 0x2f parts) = joined 0x2f (normalized [] parts).reverse :=
  @removeLoop_joined [] parts hne hparts (by simp)

/-! ## Two sources -/

@[simp]
theorem directories_nil : directories [] = [] := rfl

theorem directories_slash (front : Bytes) :
    directories (front ++ [0x2f]) = front.splitOn 0x2f := by
  have hparts : ∀ part ∈ front.splitOn 0x2f ++ [[]], 0x2f ∉ part := by
    intro part hmem
    rcases List.mem_append.mp hmem with hmem | hmem
    · exact notMem_of_mem_splitOn hmem
    · obtain rfl := List.mem_singleton.mp hmem
      simp
  have hjoined : joined 0x2f (front.splitOn 0x2f ++ [[]]) = 0x2f :: (front ++ [0x2f]) := by
    rw [joined_append, joined_splitOn]
    rfl
  have hsplit := splitOn_joined (by simp) hparts
  rw [hjoined, List.tail_cons] at hsplit
  rw [directories, rsplitTerminator, rsplit, hsplit, List.reverse_append, List.reverse_singleton,
    List.singleton_append, List.reverse_reverse]

theorem joined_directories {front : Bytes} (h : front = [] ∨ ∃ lead, front = lead ++ [0x2f])
    (path : Bytes) :
    joined 0x2f (directories front ++ path.splitOn 0x2f) = 0x2f :: (front ++ path) := by
  rw [joined_append, joined_splitOn]
  rcases h with rfl | ⟨lead, rfl⟩
  · simp
  · rw [directories_slash, joined_splitOn]
    simp

theorem mem_directories {front part : Bytes}
    (h : front = [] ∨ ∃ lead, front = lead ++ [0x2f]) (hmem : part ∈ directories front) :
    0x2f ∉ part := by
  rcases h with rfl | ⟨lead, rfl⟩
  · simp at hmem
  · rw [directories_slash] at hmem
    exact notMem_of_mem_splitOn hmem

theorem normalized_append {first second : List Bytes} (hne : second ≠ []) :
    normalized (fill [] first) second = normalized [] (first ++ second) := by
  have hends : EndsWithDots (first ++ second) ↔ EndsWithDots second := by
    rw [EndsWithDots, EndsWithDots, List.getLast?_append_of_ne_nil _ hne]
  simp only [normalized, hends, fill, List.foldl_append]

/-- The segments over two sources are those of the path that the sources make up. -/
theorem segments_append {front : Bytes} (h : front = [] ∨ ∃ lead, front = lead ++ [0x2f])
    (path : Bytes) :
    joined 0x2f (segments front path).reverse = removeDotSegments (0x2f :: (front ++ path)) := by
  have hne : path.splitOn 0x2f ≠ [] := List.splitOn_ne_nil 0x2f path
  have hparts : ∀ part ∈ directories front ++ path.splitOn 0x2f, 0x2f ∉ part := by
    intro part hmem
    rcases List.mem_append.mp hmem with hmem | hmem
    · exact mem_directories h hmem
    · exact notMem_of_mem_splitOn hmem
  rw [segments_eq, normalized_append hne, ← joined_directories h,
    removeDotSegments_joined (by simp [hne]) hparts]

/-- Where a path is cut behind its last slash. -/
def directoryEnd (path : Bytes) : ℕ :=
  (path.reverse.dropWhile (· ≠ 0x2f)).length

/-- The directory of a base path, without the root slash. -/
def directory (path : Bytes) : Bytes :=
  (path.take (directoryEnd path)).drop 1

theorem take_directoryEnd (path : Bytes) :
    path.take (directoryEnd path) = (path.reverse.dropWhile (· ≠ 0x2f)).reverse := by
  have hsplit := List.takeWhile_append_dropWhile (p := (· ≠ 0x2f)) (l := path.reverse)
  have hpath := congrArg List.reverse hsplit
  rw [List.reverse_append, List.reverse_reverse] at hpath
  rw [directoryEnd, ← List.length_reverse]
  generalize (path.reverse.dropWhile (· ≠ 0x2f)).reverse = lead at hpath ⊢
  rw [← hpath, List.take_left]

theorem directory_spec {text : Bytes} :
    (directory (0x2f :: text) = [] ∨ ∃ lead, directory (0x2f :: text) = lead ++ [0x2f]) ∧
      (0x2f :: text).take (directoryEnd (0x2f :: text)) = 0x2f :: directory (0x2f :: text) := by
  have htake := take_directoryEnd (0x2f :: text)
  have hmem : (0x2f : UInt8) ∈ (0x2f :: text).reverse := by simp
  obtain ⟨rest, hdrop⟩ : ∃ rest, (0x2f :: text).reverse.dropWhile (· ≠ 0x2f) = 0x2f :: rest := by
    cases hcases : (0x2f :: text).reverse.dropWhile (· ≠ 0x2f) with
    | nil => exact absurd hmem (dropWhile_ne_eq_nil.mp hcases)
    | cons byte rest => exact ⟨rest, by rw [(dropWhile_ne_eq_cons hcases).1]⟩
  have hlength : directoryEnd (0x2f :: text) = rest.length + 1 := by
    rw [directoryEnd, hdrop, List.length_cons]
  rw [hdrop, List.reverse_cons] at htake
  have hfirst : (0x2f :: text).take (directoryEnd (0x2f :: text)) =
      0x2f :: directory (0x2f :: text) := by
    rw [directory, hlength, List.take_succ_cons, List.drop_succ_cons, List.drop_zero]
  refine ⟨?_, hfirst⟩
  rw [htake] at hfirst
  rcases rest.eq_nil_or_concat' with rfl | ⟨lead, last, rfl⟩
  · left
    simpa using hfirst.symm
  · right
    rw [List.reverse_append, List.reverse_singleton, List.cons_append, List.nil_append,
      List.cons_append] at hfirst
    exact ⟨lead.reverse, (List.cons.inj hfirst).2.symm⟩

/-- The segments over the directory of a base path and a reference are those of the merged path. -/
theorem segments_merge (text reference : Bytes) :
    joined 0x2f (segments (directory (0x2f :: text)) reference).reverse =
      removeDotSegments (merge (0x2f :: text) reference) := by
  obtain ⟨hdirectory, htake⟩ := @directory_spec text
  rw [segments_append hdirectory, merge, if_neg (by simp), ← take_directoryEnd, htake]
  rfl

theorem segments_absolute (path : Bytes) :
    joined 0x2f (segments [] path).reverse = removeDotSegments (0x2f :: path) :=
  segments_append (.inl rfl) path

/-! ## Paths without dot segments -/

/-- No segment is a dot segment. -/
def NoDots (parts : List Bytes) : Prop :=
  ∀ part ∈ parts, part ≠ dot ∧ part ≠ dotDot

theorem fill_of_noDots {stack parts : List Bytes} (h : NoDots parts) :
    fill stack parts = parts.reverse ++ stack := by
  induction parts generalizing stack with
  | nil => rfl
  | cons part rest ih =>
    obtain ⟨hdot, hdotDot⟩ := h part List.mem_cons_self
    rw [fill_cons, push, if_neg hdot, if_neg hdotDot,
      ih (fun part hmem => h part (List.mem_cons_of_mem _ hmem))]
    simp

theorem normalized_of_noDots {parts : List Bytes} (h : NoDots parts) :
    normalized [] parts = parts.reverse := by
  rw [normalized, if_neg, fill_of_noDots h, List.append_nil, List.nil_append]
  rintro (hlast | hlast)
  · exact (h _ (List.mem_of_getLast? hlast)).1 rfl
  · exact (h _ (List.mem_of_getLast? hlast)).2 rfl

theorem mem_fill {stack parts : List Bytes} {part : Bytes} (h : part ∈ fill stack parts) :
    part ∈ stack ∨ part ∈ parts ∧ part ≠ dot ∧ part ≠ dotDot := by
  induction parts generalizing stack with
  | nil => exact .inl h
  | cons first rest ih =>
    rw [fill_cons] at h
    rcases ih h with hmem | ⟨hmem, hdots⟩
    · rw [push] at hmem
      split at hmem
      next => exact .inl hmem
      next hdot =>
        split at hmem
        next => exact .inl (List.mem_of_mem_tail hmem)
        next hdotDot =>
          rcases List.mem_cons.mp hmem with rfl | hmem
          · exact .inr ⟨List.mem_cons_self, hdot, hdotDot⟩
          · exact .inl hmem
    · exact .inr ⟨List.mem_cons_of_mem _ hmem, hdots⟩

theorem mem_normalized {parts : List Bytes} {part : Bytes} (h : part ∈ normalized [] parts) :
    (part ∈ parts ∨ part = []) ∧ part ≠ dot ∧ part ≠ dotDot := by
  rw [normalized, List.mem_append] at h
  rcases h with h | h
  · obtain rfl : part = [] := by
      split at h
      · simpa using h
      · simp at h
    exact ⟨.inr rfl, by decide, by decide⟩
  · rcases mem_fill h with hmem | ⟨hmem, hdots⟩
    · simp at hmem
    · exact ⟨.inl hmem, hdots⟩

theorem noDots_normalized (parts : List Bytes) : NoDots (normalized [] parts).reverse :=
  fun _ h => (mem_normalized (List.mem_reverse.mp h)).2

theorem normalized_ne_nil {parts : List Bytes} (h : parts ≠ []) : normalized [] parts ≠ [] := by
  intro hnil
  rw [normalized, List.append_eq_nil_iff] at hnil
  obtain ⟨hlast, hfill⟩ := hnil
  have hends : ¬EndsWithDots parts := by
    intro hends
    rw [if_pos hends] at hlast
    exact absurd hlast (by simp)
  -- the last segment is no dot segment, and remains on the stack
  obtain ⟨front, last, rfl⟩ := (List.eq_nil_or_concat' parts).resolve_left h
  rw [EndsWithDots, List.getLast?_append_cons] at hends
  simp only [List.getLast?_singleton, Option.some.injEq, not_or] at hends
  rw [fill, List.foldl_append, List.foldl_cons, List.foldl_nil, push, if_neg hends.1,
    if_neg hends.2] at hfill
  exact absurd hfill (by simp)

theorem removeDotSegments_idem {parts : List Bytes} (hne : parts ≠ [])
    (hparts : ∀ part ∈ parts, 0x2f ∉ part) :
    removeDotSegments (removeDotSegments (joined 0x2f parts)) =
      removeDotSegments (joined 0x2f parts) := by
  have hkept : ∀ part ∈ (normalized [] parts).reverse, 0x2f ∉ part := by
    intro part hmem
    rcases (mem_normalized (List.mem_reverse.mp hmem)).1 with hmem | rfl
    · exact hparts part hmem
    · simp
  rw [removeDotSegments_joined hne hparts,
    removeDotSegments_joined (by simpa using normalized_ne_nil hne) hkept,
    normalized_of_noDots (noDots_normalized parts), List.reverse_reverse]

/-! ## The reverse writer -/

theorem emitLoop_eq {start : ℕ} {out : Bytes} {parts : List Bytes}
    (h : start + (joined 0x2f parts).length ≤ out.length) :
    emitLoop (start + (joined 0x2f parts).length) out parts =
      some (splice start (joined 0x2f parts.reverse) out) := by
  induction parts generalizing out with
  | nil => simp [emitLoop]
  | cons part rest ih =>
    have hlength : (joined 0x2f (part :: rest)).length =
        (joined 0x2f rest).length + 1 + part.length := by
      simp only [joined_cons, List.length_append, List.length_cons]
      omega
    rw [hlength] at h ⊢
    have hstop : start + ((joined 0x2f rest).length + 1 + part.length) - part.length =
        start + (joined 0x2f rest).length + 1 := by omega
    have hrest := @length_joined_reverse _ 0x2f rest
    have hsegment : splice (start + (joined 0x2f rest).length) [0x2f]
        (splice (start + (joined 0x2f rest).length + 1) part out) =
          splice (start + (joined 0x2f rest).length) ([0x2f] ++ part) out :=
      splice_splice_left (by simp only [List.length_singleton]; omega)
    rw [emitLoop, if_pos (by omega)]
    dsimp only
    rw [hstop, Nat.add_sub_cancel, hsegment, ih (by rw [length_splice (by simp; omega)]; omega),
      ← hrest, splice_splice_left]
    · simp
    · rw [hrest]
      simp only [List.length_append, List.length_singleton]
      omega

/-- The writer fills its memory, whatever it held before. -/
theorem emit_eq {front query memory : Bytes} {parts : List Bytes}
    (h : memory.length = front.length + measure parts + query.length) :
    emit front (measure parts) parts query memory =
      some (front ++ joined 0x2f parts.reverse ++ query) := by
  have hreverse := @length_joined_reverse _ 0x2f parts
  rw [measure_eq] at h ⊢
  have hfront : (splice 0 front memory).length = memory.length := length_splice (by omega)
  have hquery : splice front.length (joined 0x2f parts.reverse)
      (splice (front.length + (joined 0x2f parts).length) query (splice 0 front memory)) =
        splice (0 + front.length) (joined 0x2f parts.reverse ++ query) (splice 0 front memory) := by
    rw [← hreverse, splice_splice_left (by omega), Nat.zero_add]
  rw [emit, if_pos (by omega)]
  dsimp only
  rw [emitLoop_eq (by rw [length_splice (by omega)]; omega), hquery, splice_splice_right,
    splice_of_length_eq, List.append_assoc]
  all_goals
    simp only [List.length_append]
    omega

end Sark.Uri
