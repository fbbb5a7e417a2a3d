import Sark.Http.Uri.Segments
import Sark.Http.Uri.Target

/-!
# References

Relative references (`http/src/uri/target/relative`): they are resolved against a target, and a
target is normalized as its own reference. The new path is measured and then written from its end
into fresh memory.

* `Relative.resolve_has`: a resolved reference has the parts that the standard gives it.
* `Target.normalize_has`: a normalized target has the path without dot segments.
* `dot_segments`: what the reverse writer measures and puts down.
-/

namespace Sark.Uri

/-- `relative::Relative`. -/
structure Relative where
  value : Bytes
  pathEnd : ℕ
  deriving DecidableEq, Repr

namespace Relative

open Target (slice narrow plan grant buffer)

/-- `Relative::from_target`. -/
def fromTarget (target : Target) : Relative :=
  ⟨target.pathQuery, target.pathEnd - target.authorityEnd⟩

/-- `Relative::parse`. -/
def parse (value : Bytes) : Except Target.Error Relative := do
  let scanned ← (Scan.complete value).mapError Target.Error.origin
  let pathEnd ← narrow scanned.pathEnd
  pure ⟨value, pathEnd⟩

/-- The path of a reference. -/
def path (self : Relative) : Bytes :=
  slice self.value 0 self.pathEnd

/-- The query of a reference, with its question mark. -/
def query (self : Relative) : Bytes :=
  slice self.value self.pathEnd self.value.length

/-- `Relative::has_dots`. -/
def hasDots (self : Relative) : Bool :=
  (self.path.splitOn 0x2f).any fun part => part = dot || part = dotDot

/-- The two sources of the segments: the directory of the base path, unless the reference begins at
the root, and the path of the reference. -/
def sources (self : Relative) (base : Target) : Bytes × Bytes :=
  if self.path.head? = some 0x2f then ([], self.path.tail)
  else (directory base.path, self.path)

/-- `Relative::materialize`, where nothing stands for a write outside of the memory. -/
def materialize (memory : Memory) (self : Relative) (base : Target) :
    Option (Except Target.Error Target) :=
  if self.path = [] then
    some do
      buffer memory (base.pathEnd + self.query.length)
      pure { base with value := slice base.value 0 base.pathEnd ++ self.query }
  else
    let parts := segments (self.sources base).1 (self.sources base).2
    let pathLen := measure parts
    let capacity := base.authorityEnd + pathLen + self.query.length
    match (do plan memory capacity; grant memory capacity : Except Target.Error Unit) with
    | .error error => some (.error error)
    | .ok () =>
      (emit (slice base.value 0 base.authorityEnd) pathLen parts self.query
        (memory.fresh capacity)).map fun value => do
          let _ ← narrow pathLen
          let pathEnd ← narrow (base.authorityEnd + pathLen)
          pure { base with value, pathEnd }

/-- `Relative::resolve`. -/
def resolve (memory : Memory) (self : Relative) (base : Target) :
    Option (Except Target.Error Target) :=
  if self.value = [] then some (base.tryClone memory)
  else if self.value.head? = some 0x2f ∧ self.hasDots = false then
    some (base.withOrigin memory ⟨self.value, self.pathEnd, .present⟩)
  else self.materialize memory base

end Relative

/-- `Target::normalize`. -/
def Target.normalize (memory : Memory) (self : Target) : Option (Except Target.Error Target) :=
  if (Relative.fromTarget self).hasDots then (Relative.fromTarget self).materialize memory self
  else some (.ok self)

/-! ## Characters of segments -/

namespace Scan

variable {context : Context}

theorem Chars.append {left right : Bytes} (hleft : Chars context left)
    (hright : Chars context right) : Chars context (left ++ right) := by
  induction hleft with
  | nil => exact hright
  | plain h hrest ih => exact .plain h ih
  | escape hfirst hsecond hrest ih => exact .escape hfirst hsecond ih

theorem Chars.split {left right : Bytes} (h : Chars context (left ++ 0x2f :: right)) :
    Chars context left ∧ Chars context right := by
  induction hsize : left.length using Nat.strong_induction_on generalizing left with
  | _ size ih =>
  obtain rfl := hsize
  have hslash : isHexDigit 0x2f = false := by decide
  rcases left with _ | ⟨byte, left⟩
  · cases h with
    | plain h hrest => exact ⟨.nil, hrest⟩
  · generalize htext : byte :: left ++ 0x2f :: right = text at h
    rw [List.cons_append] at htext
    cases h with
    | nil => exact absurd htext (by simp)
    | plain h hrest =>
      obtain ⟨rfl, rfl⟩ := List.cons.inj htext
      obtain ⟨hleft, hright⟩ := ih left.length (by simp) hrest rfl
      exact ⟨.plain h hleft, hright⟩
    | escape hfirst hsecond hrest =>
      obtain ⟨rfl, heq⟩ := List.cons.inj htext
      rcases left with _ | ⟨first', _ | ⟨second', left⟩⟩
      · obtain ⟨rfl, -⟩ := List.cons.inj heq
        rw [hslash] at hfirst
        exact Bool.noConfusion hfirst
      · obtain ⟨rfl, htail⟩ := List.cons.inj heq
        obtain ⟨rfl, -⟩ := List.cons.inj htail
        rw [hslash] at hsecond
        exact Bool.noConfusion hsecond
      · obtain ⟨rfl, htail⟩ := List.cons.inj heq
        obtain ⟨rfl, rfl⟩ := List.cons.inj htail
        obtain ⟨hleft, hright⟩ := ih left.length (by simp only [List.length_cons]; omega) hrest rfl
        exact ⟨.escape hfirst hsecond hleft, hright⟩

theorem chars_joined {parts : List Bytes} :
    Chars context (joined 0x2f parts) ↔ ∀ part ∈ parts, Chars context part := by
  have hslash : isPath context 0x2f = true := by cases context <;> decide
  induction parts with
  | nil => exact iff_of_true .nil (by simp)
  | cons part parts ih =>
    rw [joined_cons, List.forall_mem_cons, List.cons_append]
    refine Iff.trans ?_ (and_congr_right fun _ => ih)
    constructor
    · intro h
      have hpart : Chars context (part ++ joined 0x2f parts) := by
        cases h with
        | plain h hrest => exact hrest
      rcases parts with _ | ⟨second, parts⟩
      · rw [joined_nil, List.append_nil] at hpart
        exact ⟨hpart, .nil⟩
      · rw [joined_cons, List.cons_append] at hpart ⊢
        obtain ⟨hpart, hrest⟩ := hpart.split
        exact ⟨hpart, .plain hslash hrest⟩
    · rintro ⟨hpart, hrest⟩
      exact .plain hslash (hpart.append hrest)

end Scan

theorem removeDotSegments_spec (text : Bytes) :
    removeDotSegments (0x2f :: text) =
      joined 0x2f (normalized [] (text.splitOn 0x2f)).reverse := by
  rw [← joined_splitOn, removeDotSegments_joined (List.splitOn_ne_nil 0x2f text)
    fun part hmem => notMem_of_mem_splitOn hmem]

theorem removeDotSegments_chars {text : Bytes} (h : Scan.Chars .path (0x2f :: text)) :
    (∃ rest, removeDotSegments (0x2f :: text) = 0x2f :: rest) ∧
      Scan.Chars .path (removeDotSegments (0x2f :: text)) := by
  rw [← joined_splitOn, Scan.chars_joined] at h
  rw [removeDotSegments_spec]
  have hne := normalized_ne_nil (List.splitOn_ne_nil 0x2f text)
  constructor
  · obtain ⟨part, parts, hparts⟩ := List.exists_cons_of_ne_nil (List.reverse_ne_nil_iff.mpr hne)
    rw [hparts, joined_cons]
    exact ⟨_, rfl⟩
  · rw [Scan.chars_joined]
    intro part hmem
    rcases (mem_normalized (List.mem_reverse.mp hmem)).1 with hmem | rfl
    · exact h part hmem
    · exact .nil

theorem removeDotSegments_twice (text : Bytes) :
    removeDotSegments (removeDotSegments (0x2f :: text)) = removeDotSegments (0x2f :: text) := by
  have hidem := removeDotSegments_idem (List.splitOn_ne_nil 0x2f text)
    fun part hmem => notMem_of_mem_splitOn hmem
  rwa [joined_splitOn] at hidem

/-! ## References and their parts -/

/-- A reference with a given path and query. -/
structure Relative.Has (reference : Relative) (path : Bytes) (query : Option Bytes) : Prop where
  path_chars : Scan.Chars .path path
  query_chars : ∀ text ∈ query, Scan.Chars .query text
  value_eq : reference.value = path ++ queryText query
  pathEnd_eq : reference.pathEnd = path.length

/-- The path that the standard gives a resolved reference. -/
def resolvedPath (base reference : Bytes) : Bytes :=
  if reference = [] then base
  else if reference.head? = some 0x2f then removeDotSegments reference
  else removeDotSegments (merge base reference)

/-- The query that the standard gives a resolved reference. -/
def resolvedQuery (base : Option Bytes) (reference : Bytes) (query : Option Bytes) : Option Bytes :=
  if reference = [] ∧ query = none then base else query

/-- The parts that the standard gives a reference that is resolved against a base. -/
def Components.resolved (self : Components) (path : Bytes) (query : Option Bytes) : Components :=
  { self with path := resolvedPath self.path path, query := resolvedQuery self.query path query }

namespace Relative.Has

variable {reference : Relative} {path : Bytes} {query : Option Bytes}

theorem path_eq (h : reference.Has path query) : reference.path = path := by
  rw [Relative.path, h.value_eq, h.pathEnd_eq, Target.slice, List.take_left, List.drop_zero]

theorem query_eq (h : reference.Has path query) : reference.query = queryText query := by
  rw [Relative.query, h.value_eq, h.pathEnd_eq, Target.slice_last]

theorem hasDots_eq_false (h : reference.Has path query) :
    reference.hasDots = false ↔ NoDots (path.splitOn 0x2f) := by
  rw [hasDots, h.path_eq, List.any_eq_false, NoDots]
  simp

end Relative.Has

theorem Relative.parse_has {value : Bytes} {reference : Relative}
    (h : Relative.parse value = .ok reference) : ∃ path query, reference.Has path query := by
  simp only [Relative.parse, Except.bind_eq_ok_iff, Except.mapError_eq_ok_iff,
    Scan.complete_iff, Origin.narrow_iff] at h
  obtain ⟨plan, hplan, _, ⟨-, rfl⟩, h⟩ := h
  obtain ⟨path, query, rfl, hend, hpath, hquery⟩ := Origin.split_plan hplan
  obtain rfl := Except.ok.inj h
  exact ⟨path, query, hpath, hquery, rfl, hend⟩

theorem Target.Has.relative_has {target : Target} {parts : Components} (h : target.Has parts) :
    (Relative.fromTarget target).Has parts.path parts.query := by
  refine ⟨h.valid.origin.path_chars, h.valid.origin.query_chars, h.pathQuery_eq, ?_⟩
  rw [Relative.fromTarget]
  dsimp only
  rw [h.pathEnd_eq, h.authorityEnd_eq]
  omega

/-! ## The resolved path -/

theorem merge_eq (text reference : Bytes) :
    merge (0x2f :: text) reference = 0x2f :: (directory (0x2f :: text) ++ reference) := by
  rw [merge, if_neg (by simp), ← take_directoryEnd, (@directory_spec text).2]
  rfl

theorem merge_chars {text reference : Bytes} (htext : Scan.Chars .path (0x2f :: text))
    (hreference : Scan.Chars .path reference) :
    Scan.Chars .path (merge (0x2f :: text) reference) := by
  have hslash : Scan.Chars .path [0x2f] := .plain (by decide) .nil
  obtain ⟨hdirectory, htake⟩ := @directory_spec text
  have hsplit := List.take_append_drop (directoryEnd (0x2f :: text)) (0x2f :: text)
  rw [htake] at hsplit
  have hfront : Scan.Chars .path (0x2f :: directory (0x2f :: text)) := by
    rcases hdirectory with hnil | ⟨lead, hlead⟩
    · rw [hnil]
      exact hslash
    · rw [hlead] at hsplit ⊢
      rw [← hsplit, ← List.cons_append, List.append_assoc, List.singleton_append] at htext
      rw [← List.cons_append]
      exact htext.split.1.append hslash
  rw [merge_eq, ← List.cons_append]
  exact hfront.append hreference

theorem resolvedPath_origin {base path : Bytes} {query query' : Option Bytes}
    (hbase : OriginText base query) (hpath : Scan.Chars .path path)
    (hquery : ∀ text ∈ query', Scan.Chars .query text) :
    OriginText (resolvedPath base path) query' := by
  obtain ⟨text, rfl⟩ := hbase.slash
  rw [resolvedPath]
  split
  · exact ⟨⟨text, rfl⟩, hbase.path_chars, hquery⟩
  · split
    · rename_i hslash
      obtain ⟨rest, rfl⟩ := List.head?_eq_some_iff.mp hslash
      obtain ⟨hroot, hchars⟩ := removeDotSegments_chars hpath
      exact ⟨hroot, hchars, hquery⟩
    · have hmerge := merge_chars hbase.path_chars hpath
      rw [merge_eq] at hmerge ⊢
      obtain ⟨hroot, hchars⟩ := removeDotSegments_chars hmerge
      exact ⟨hroot, hchars, hquery⟩

namespace Components

variable {parts : Components} {path : Bytes} {query : Option Bytes}

theorem resolved_valid (h : parts.Valid) (hpath : Scan.Chars .path path)
    (hquery : ∀ text ∈ query, Scan.Chars .query text) : (parts.resolved path query).Valid := by
  refine ⟨h.scheme, h.authority, resolvedPath_origin h.origin hpath ?_⟩
  intro text hmem
  rw [resolved, resolvedQuery] at hmem
  dsimp only at hmem
  split at hmem
  · exact h.origin.query_chars text hmem
  · exact hquery text hmem

end Components

namespace Relative

variable {memory : Memory} {reference : Relative} {base result : Target} {parts : Components}
  {path : Bytes} {query : Option Bytes}

theorem joined_sources (hbase : base.Has parts) (h : reference.Has path query) (hne : path ≠ []) :
    joined 0x2f (segments (reference.sources base).1 (reference.sources base).2).reverse =
      resolvedPath parts.path path := by
  obtain ⟨text, htext⟩ := hbase.valid.origin.slash
  rw [sources, h.path_eq, hbase.path_eq, htext, resolvedPath, if_neg hne]
  by_cases hslash : path.head? = some 0x2f
  · obtain ⟨rest, rfl⟩ := List.head?_eq_some_iff.mp hslash
    rw [if_pos hslash, if_pos hslash]
    exact segments_absolute rest
  · rw [if_neg hslash, if_neg hslash]
    exact segments_merge text path

theorem measure_sources (hbase : base.Has parts) (h : reference.Has path query) (hne : path ≠ []) :
    measure (segments (reference.sources base).1 (reference.sources base).2) =
      (resolvedPath parts.path path).length := by
  rw [measure_eq, ← length_joined_reverse, joined_sources hbase h hne]

open Target (slice)

/-- The base's string up to its path, with a path and a query behind it. -/
def written (memory : Memory) (base : Target) (path query : Bytes) :
    Except Target.Error Target := do
  Target.plan memory (base.authorityEnd + path.length + query.length)
  Target.grant memory (base.authorityEnd + path.length + query.length)
  let _ ← Target.narrow path.length
  let pathEnd ← Target.narrow (base.authorityEnd + path.length)
  pure { base with value := slice base.value 0 base.authorityEnd ++ path ++ query, pathEnd }

theorem materialize_eq (hbase : base.Has parts) (h : reference.Has path query) (hne : path ≠ []) :
    reference.materialize memory base =
      some (written memory base (resolvedPath parts.path path) (queryText query)) := by
  have hmeasure := measure_sources hbase h hne
  have hfront : (slice base.value 0 base.authorityEnd).length = base.authorityEnd := by
    rw [slice, List.drop_zero, List.length_take, hbase.length_value, hbase.authorityEnd_eq]
    omega
  have hemit := @emit_eq (slice base.value 0 base.authorityEnd) reference.query
    (memory.fresh (base.authorityEnd +
      measure (segments (reference.sources base).1 (reference.sources base).2) +
        reference.query.length)) (segments (reference.sources base).1 (reference.sources base).2)
    (by rw [memory.length_fresh, hfront])
  rw [materialize, h.path_eq, if_neg hne]
  dsimp only
  rw [hemit, joined_sources hbase h hne, hmeasure, h.query_eq, written]
  cases hplan : Target.plan memory (base.authorityEnd + (resolvedPath parts.path path).length +
      (queryText query).length) with
  | error error => rfl
  | ok planned =>
    cases hgrant : Target.grant memory (base.authorityEnd + (resolvedPath parts.path path).length +
        (queryText query).length) with
    | error error => rfl
    | ok granted => rfl

theorem slice_base (hbase : base.Has parts) : slice base.value 0 base.authorityEnd =
    Target.lead parts.scheme ++ parts.raw := by
  rw [slice, List.drop_zero, hbase.authorityEnd_eq, hbase.value_eq, Components.text,
    ← List.length_append, List.take_left]

theorem written_has (hbase : base.Has parts) (horigin : OriginText path query)
    (h : written memory base path (queryText query) = .ok result) :
    result.Has { parts with path, query } := by
  simp only [written, Except.bind_eq_ok_iff, Origin.narrow_iff] at h
  obtain ⟨_, -, _, -, _, -, _, ⟨hlt, rfl⟩, h⟩ := h
  obtain rfl := Except.ok.inj h
  refine ⟨⟨hbase.valid.scheme, hbase.valid.authority, horigin⟩, ?_, hbase.schemeEnd_eq,
    hbase.hostEnd_eq, hbase.authorityEnd_eq, ?_, hlt⟩
  · show slice base.value 0 base.authorityEnd ++ path ++ queryText query = _
    rw [slice_base hbase, Components.text, List.append_assoc _ path]
  · show base.authorityEnd + path.length = _
    rw [hbase.authorityEnd_eq]

/-- Memory that is never refused. -/
def Granted (memory : Memory) : Prop :=
  ∀ extent, memory.plans extent = true ∧ memory.grants extent = true

theorem written_ok (hmemory : Granted memory)
    (hlt : base.authorityEnd + path.length < 2 ^ 32) (rest : Bytes) :
    ∃ result, written memory base path rest = .ok result := by
  refine ⟨{ base with
    value := slice base.value 0 base.authorityEnd ++ path ++ rest
    pathEnd := base.authorityEnd + path.length }, ?_⟩
  simp only [written, Except.bind_eq_ok_iff, Origin.narrow_iff, Target.plan, Target.grant,
    (hmemory _).1, (hmemory _).2, if_true]
  exact ⟨(), trivial, (), trivial, _, ⟨by omega, rfl⟩, _, ⟨hlt, rfl⟩, rfl⟩

theorem materialize_nil (hbase : base.Has parts) (h : reference.Has [] query) :
    ∃ answer, reference.materialize memory base = some answer ∧
      (∀ result, answer = .ok result → result.Has { parts with query }) ∧
      (Granted memory → ∃ result, answer = .ok result) := by
  rw [materialize, h.path_eq, if_pos rfl]
  refine ⟨_, rfl, ?_, ?_⟩
  · intro result hresult
    rw [Except.bind_eq_ok_iff] at hresult
    obtain ⟨_, -, hresult⟩ := hresult
    obtain rfl := Except.ok.inj hresult
    refine ⟨⟨hbase.valid.scheme, hbase.valid.authority, hbase.valid.origin.slash,
      hbase.valid.origin.path_chars, h.query_chars⟩, ?_, hbase.schemeEnd_eq, hbase.hostEnd_eq,
      hbase.authorityEnd_eq, hbase.pathEnd_eq, hbase.pathEnd_lt⟩
    show slice base.value 0 base.pathEnd ++ reference.query = _
    rw [slice, List.drop_zero, hbase.pathEnd_eq, hbase.value_eq, Components.text, h.query_eq,
      ← List.append_assoc, ← List.length_append, ← List.length_append, List.take_left,
      Components.text, List.append_assoc]
  · intro hmemory
    refine ⟨{ base with value := slice base.value 0 base.pathEnd ++ reference.query }, ?_⟩
    simp only [Target.buffer, Target.plan, Target.grant, (hmemory _).1, (hmemory _).2, if_true]
    rfl

theorem resolvedPath_of_noDots {base text : Bytes} (h : NoDots ((0x2f :: text).splitOn 0x2f)) :
    resolvedPath base (0x2f :: text) = 0x2f :: text := by
  have htext : NoDots (text.splitOn 0x2f) := by
    rw [List.splitOn_cons_eq_if_modifyHead, if_pos (by rfl)] at h
    exact fun part hmem => h part (List.mem_cons_of_mem _ hmem)
  rw [resolvedPath, if_neg (by simp), if_pos (List.head?_cons ..), removeDotSegments_spec,
    normalized_of_noDots htext, List.reverse_reverse, joined_splitOn]

/-- A resolved reference has the parts that the standard gives it, and nothing is written outside of
the memory. -/
theorem resolve_has (hbase : base.Has parts) (h : reference.Has path query) :
    ∃ answer, reference.resolve memory base = some answer ∧
      (∀ result, answer = .ok result → result.Has (parts.resolved path query)) ∧
      (Granted memory → base.authorityEnd + (resolvedPath parts.path path).length < 2 ^ 32 →
        ∃ result, answer = .ok result) := by
  have hnil : reference.value = [] ↔ path = [] ∧ query = none := by
    rw [h.value_eq, List.append_eq_nil_iff]
    cases query <;> simp [queryText]
  rw [resolve]
  by_cases hempty : path = [] ∧ query = none
  · -- the reference is the base itself
    rw [if_pos (hnil.mpr hempty)]
    refine ⟨_, rfl, ?_, ?_⟩
    · intro result hresult
      rw [Target.tryClone_eq hresult, Components.resolved, resolvedPath, if_pos hempty.1,
        resolvedQuery, if_pos hempty]
      exact hbase
    · intro hmemory hlt
      refine ⟨base, ?_⟩
      simp only [Target.tryClone, Target.grant, (hmemory _).2, if_true]
      rfl
  rw [if_neg (fun hvalue => hempty (hnil.mp hvalue))]
  have hquery : resolvedQuery parts.query path query = query := by
    rw [resolvedQuery, if_neg hempty]
  have hresolved := Components.resolved_valid hbase.valid h.path_chars h.query_chars
  rw [Components.resolved, hquery] at hresolved ⊢
  by_cases hroot : reference.value.head? = some 0x2f ∧ reference.hasDots = false
  · obtain ⟨hslash, hdots⟩ := hroot
    rw [if_pos ⟨hslash, hdots⟩]
    obtain ⟨text, rfl⟩ : ∃ text, path = 0x2f :: text := by
      rw [h.value_eq] at hslash
      rcases path with _ | ⟨byte, path⟩
      · cases query <;> simp [queryText] at hslash
      · exact ⟨path, by simpa using hslash⟩
    have hpath := @resolvedPath_of_noDots parts.path text (h.hasDots_eq_false.mp hdots)
    rw [hpath] at hresolved ⊢
    have horigin : (Origin.mk reference.value reference.pathEnd .present).Has (0x2f :: text) query :=
      ⟨hresolved.origin, h.value_eq, h.pathEnd_eq⟩
    refine ⟨_, rfl, ?_, ?_⟩
    · intro result hresult
      exact Target.withOrigin_has hbase horigin hresult
    · intro hmemory hlt
      rw [hbase.authorityEnd_eq] at hlt
      rw [Target.withOrigin, hbase.scheme_eq, hbase.rawAuthority_eq, hbase.parts_eq]
      refine Target.exists_pack hbase.valid.authority ?_ ?_
      · rwa [horigin.pathStop_eq]
      · simp only [Target.buffer, Target.plan, Target.grant, (hmemory _).1, (hmemory _).2, if_true]
        rfl
  · rw [if_neg hroot]
    by_cases hne : path = []
    · subst hne
      obtain ⟨answer, hanswer, hhas, hok⟩ := @materialize_nil memory _ _ _ _ hbase h
      refine ⟨answer, hanswer, ?_, fun hmemory _ => hok hmemory⟩
      rw [resolvedPath, if_pos rfl]
      exact hhas
    · refine ⟨_, materialize_eq hbase h hne, ?_, ?_⟩
      · intro result hresult
        exact written_has hbase hresolved.origin hresult
      · exact fun hmemory hlt => written_ok hmemory hlt _

end Relative

/-! ## Normalization -/

theorem length_dropSegment (output : Bytes) : (dropSegment output).length ≤ output.length := by
  have hdrop := List.length_dropWhile_le (· ≠ 0x2f) output.reverse
  rw [List.length_reverse] at hdrop
  rw [dropSegment, List.length_reverse, List.length_tail]
  omega

theorem length_removeLoop (output input : Bytes) :
    (removeLoop output input).length ≤ output.length + input.length := by
  fun_induction removeLoop output input with
  | case1 => simp
  | case2 output input hne hlead ih =>
    rw [List.length_drop] at ih
    omega
  | case3 output input hne hfirst hlead ih =>
    rw [List.length_drop] at ih
    omega
  | case4 output input hne hfirst hsecond hlead ih =>
    rw [List.length_drop] at ih
    omega
  | case5 output =>
    rename_i ih
    simpa using ih.trans (by simp)
  | case6 output input hne hfirst hsecond hthird hfourth hlead ih =>
    have hdrop := length_dropSegment output
    rw [List.length_drop] at ih
    omega
  | case7 output =>
    rename_i ih
    have hdrop := length_dropSegment output
    simp only [List.length_cons, List.length_nil] at ih ⊢
    omega
  | case8 => simp
  | case9 output input hne =>
    rename_i ih
    have hinput := List.takeWhile_append_dropWhile (p := (· ≠ 0x2f)) (l := input.drop 1)
    have hsplit := congrArg List.length (List.take_append_drop 1 input)
    rw [← hinput] at hsplit
    simp only [List.length_append] at hsplit ih ⊢
    omega

theorem length_removeDotSegments (path : Bytes) :
    (removeDotSegments path).length ≤ path.length := by
  have h := length_removeLoop [] path
  rwa [List.length_nil, Nat.zero_add] at h

namespace Target

variable {memory : Memory} {target : Target} {parts : Components}

theorem splitOn_slash (text : Bytes) :
    (0x2f :: text).splitOn 0x2f = [] :: text.splitOn 0x2f := by
  rw [List.splitOn_cons_eq_if_modifyHead, if_pos (by rfl)]

theorem noDots_removed (text : Bytes) :
    NoDots ((removeDotSegments (0x2f :: text)).splitOn 0x2f) := by
  have hkept : ∀ part ∈ (normalized [] (text.splitOn 0x2f)).reverse, 0x2f ∉ part := by
    intro part hmem
    rcases (mem_normalized (List.mem_reverse.mp hmem)).1 with hmem | rfl
    · exact notMem_of_mem_splitOn hmem
    · simp
  have hne := normalized_ne_nil (List.splitOn_ne_nil 0x2f text)
  have hsplit := splitOn_joined (List.reverse_ne_nil_iff.mpr hne) hkept
  rw [removeDotSegments_spec]
  obtain ⟨part, rest, hparts⟩ := List.exists_cons_of_ne_nil (List.reverse_ne_nil_iff.mpr hne)
  have hdots := noDots_normalized (text.splitOn 0x2f)
  rw [hparts] at hsplit hdots ⊢
  rw [joined_cons, List.cons_append, List.tail_cons] at hsplit
  rw [joined_cons, List.cons_append, splitOn_slash, hsplit]
  exact List.forall_mem_cons.mpr ⟨⟨by decide, by decide⟩, hdots⟩

/-- The path is normalized whenever it can be measured, and nothing is written outside of the
memory. -/
theorem normalize_has (h : target.Has parts) :
    ∃ answer, target.normalize memory = some answer ∧
      (∀ result, answer = .ok result →
        result.Has { parts with path := removeDotSegments parts.path }) ∧
      (Relative.Granted memory → ∃ result, answer = .ok result) := by
  have hrelative := h.relative_has
  obtain ⟨text, htext⟩ := h.valid.origin.slash
  have hpath : resolvedPath parts.path parts.path = removeDotSegments parts.path := by
    rw [htext, resolvedPath, if_neg (by simp), if_pos (List.head?_cons ..)]
  rw [normalize]
  by_cases hdots : (Relative.fromTarget target).hasDots = false
  · rw [hdots, if_neg Bool.false_ne_true]
    have hsame : resolvedPath parts.path parts.path = parts.path := by
      have hnoDots := hrelative.hasDots_eq_false.mp hdots
      rw [htext] at hnoDots ⊢
      exact Relative.resolvedPath_of_noDots hnoDots
    refine ⟨_, rfl, ?_, fun _ => ⟨target, rfl⟩⟩
    intro result hresult
    obtain rfl := Except.ok.inj hresult
    rw [← hpath, hsame]
    exact h
  · rw [Bool.not_eq_false] at hdots
    have hne : parts.path ≠ [] := by simp [htext]
    have horigin := resolvedPath_origin h.valid.origin h.valid.origin.path_chars
      h.valid.origin.query_chars
    rw [hdots, if_pos rfl, Relative.materialize_eq h hrelative hne]
    refine ⟨_, rfl, ?_, ?_⟩
    · intro result hresult
      rw [← hpath]
      exact Relative.written_has h horigin hresult
    · intro hmemory
      refine Relative.written_ok hmemory ?_ _
      have hlt := h.pathEnd_lt
      have hlength := length_removeDotSegments parts.path
      rw [h.pathEnd_eq] at hlt
      rw [hpath, h.authorityEnd_eq]
      omega

theorem normalize_twice {result : Target} (h : target.Has parts)
    (hresult : target.normalize memory = some (.ok result)) :
    result.normalize memory = some (.ok result) := by
  obtain ⟨answer, hanswer, hhas, -⟩ := @normalize_has memory _ _ h
  have hparts := hhas result (Option.some.inj (hanswer.symm.trans hresult))
  obtain ⟨text, htext⟩ := h.valid.origin.slash
  have hdots : (Relative.fromTarget result).hasDots = false := by
    rw [hparts.relative_has.hasDots_eq_false, htext]
    exact noDots_removed text
  rw [normalize, hdots, if_neg Bool.false_ne_true]

end Target

/-! ## The writer -/

/-- The writer over two sources measures a path and puts it down, whatever the memory held. -/
structure Writes (front reference path : Bytes) : Prop where
  measure_eq : measure (segments front reference) = path.length
  emit_eq : ∀ lead query memory : Bytes,
    memory.length = lead.length + measure (segments front reference) + query.length →
      emit lead (measure (segments front reference)) (segments front reference) query memory =
        some (lead ++ path ++ query)

theorem writes_of_joined {front reference path : Bytes}
    (h : joined 0x2f (segments front reference).reverse = path) : Writes front reference path := by
  constructor
  · rw [measure_eq, ← length_joined_reverse, h]
  · intro lead query memory hlength
    rw [emit_eq hlength, h]

/-- The reverse writer puts down what the standard's algorithm makes of the merged path, for every
base path from the root and every reference. Its measure is the length of what it writes, and doing
it again changes nothing. References are resolved and targets are normalized with it. -/
theorem dot_segments (memory : Memory) :
    (∀ text reference, Writes (directory (0x2f :: text)) reference
      (removeDotSegments (merge (0x2f :: text) reference))) ∧
    (∀ reference, Writes [] reference (removeDotSegments (0x2f :: reference))) ∧
    (∀ text, removeDotSegments (removeDotSegments (0x2f :: text)) =
      removeDotSegments (0x2f :: text)) ∧
    (∀ (base : Target) (parts : Components) (reference : Relative) (path : Bytes)
      (query : Option Bytes), base.Has parts → reference.Has path query →
        ∃ answer, reference.resolve memory base = some answer ∧
          (∀ result, answer = .ok result → result.Has (parts.resolved path query)) ∧
          (Relative.Granted memory →
            base.authorityEnd + (resolvedPath parts.path path).length < 2 ^ 32 →
              ∃ result, answer = .ok result)) ∧
    (∀ (target : Target) (parts : Components), target.Has parts →
      ∃ answer, target.normalize memory = some answer ∧
        (∀ result, answer = .ok result →
          result.Has { parts with path := removeDotSegments parts.path } ∧
            result.normalize memory = some (.ok result)) ∧
        (Relative.Granted memory → ∃ result, answer = .ok result)) := by
  refine ⟨fun text reference => writes_of_joined (segments_merge text reference),
    fun reference => writes_of_joined (segments_absolute reference), removeDotSegments_twice,
    fun base parts reference path query hbase href => Relative.resolve_has hbase href, ?_⟩
  intro target parts h
  obtain ⟨answer, hanswer, hhas, hok⟩ := @Target.normalize_has memory _ _ h
  refine ⟨answer, hanswer, ?_, hok⟩
  rintro result rfl
  exact ⟨hhas result rfl, Target.normalize_twice h hanswer⟩

end Sark.Uri
