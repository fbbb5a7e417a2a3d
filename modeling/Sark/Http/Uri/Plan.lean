import Sark.Http.Uri.Relative

/-!
# Plans of targets

An admitted target whose string is built when it is needed (`http/src/uri/target/plan.rs`), and the
targets that can be constructed at all.

* `Target.Plan.built_eq`: a plan that is built is the target that is parsed.
* `Constructed.has`: every target that can be constructed has parts, and its offsets are where they
  end.
* `Target.offsets`: what its string is parsed as.
-/

namespace Sark.Uri

/-- A `String`: its bytes and the capacity of its buffer. -/
structure OwnedText where
  bytes : Bytes
  capacity : ℕ
  length_le : bytes.length ≤ capacity

/-- A `String` whose buffer is full. -/
def OwnedText.exactly (bytes : Bytes) : OwnedText :=
  ⟨bytes, bytes.length, le_rfl⟩

namespace Target

/-- `plan::Plan`. -/
structure Plan where
  value : OwnedText
  front : Bool
  slash : Slash
  extent : ℕ
  bounds : Bounds

namespace Plan

/-- `Plan::parse`. -/
def parse (memory : Memory) (value : OwnedText) : Except Error Plan := do
  let parsed ← Absolute.parse value.bytes
  let stop := value.bytes.length - parsed.origin.value.length
  let capacity := value.bytes.length + parsed.origin.slash.text.length
  let bounds ← Bounds.new parsed.scheme.length
    (parsed.scheme.length + 3 + parsed.parsed.host.length) stop (stop + parsed.origin.pathStop)
  Target.plan memory capacity
  pure ⟨value, false, parsed.origin.slash, capacity, bounds⟩

/-- `"http"`. -/
def httpScheme : Bytes :=
  [0x68, 0x74, 0x74, 0x70]

/-- `Plan::http`. -/
def http (memory : Memory) (value : OwnedText) : Except Error Plan := do
  let parsed ← authority value.bytes
  let stop := 7 + value.bytes.length
  let bounds ← Bounds.new 4 (7 + parsed.host.length) stop (stop + 1)
  Target.plan memory (stop + 1)
  pure ⟨value, true, .insert, stop + 1, bounds⟩

/-- `raw::insert`, whose result must fit the buffer. -/
def insert (capacity : ℕ) (value : Bytes) (place : ℕ) (text : Bytes) : Option Bytes :=
  if place ≤ value.length ∧ value.length + text.length ≤ capacity then
    some (value.take place ++ text ++ value.drop place)
  else none

/-- `raw::boxed`, which needs a full buffer. -/
def boxed (capacity : ℕ) (value : Bytes) : Option Bytes :=
  if value.length = capacity then some value else none

/-- What stands in front of the string. -/
def lead (self : Plan) : Bytes :=
  if self.front then httpScheme ++ separator else []

/-- The string in a fresh buffer. -/
def copied (self : Plan) : Option Bytes :=
  let stop := self.bounds.authorityEnd - self.lead.length
  if self.lead.length ≤ self.bounds.authorityEnd ∧ stop ≤ self.value.bytes.length then
    boxed self.extent (self.lead ++ self.value.bytes.take stop ++ self.slash.text ++
      self.value.bytes.drop stop)
  else none

/-- The string in its own buffer. -/
def extended (self : Plan) : Option Bytes := do
  let value ← insert self.value.capacity self.value.bytes 0 self.lead
  let value ← insert self.value.capacity value self.bounds.authorityEnd self.slash.text
  boxed self.value.capacity value

/-- `Plan::try_build`, where nothing stands for a use of a buffer that it is not fit for. -/
def tryBuild (memory : Memory) (self : Plan) : Option (Except Error Target) :=
  if self.value.capacity ≠ self.extent then
    match grant memory self.extent with
    | .error error => some (.error error)
    | .ok () => self.copied.map fun value => .ok (self.bounds.build value)
  else self.extended.map fun value => .ok (self.bounds.build value)

/-- `Plan::parse` and `Plan::try_build`. -/
def built (memory : Memory) (value : OwnedText) : Option (Except Error Target) :=
  match parse memory value with
  | .error error => some (.error error)
  | .ok plan => plan.tryBuild memory

/-! ## Building -/

section Build

variable {memory : Memory}

/-- What a plan builds, if its offsets fit its string and its extent is the length of the result. -/
theorem tryBuild_eq {self : Plan} {stop : ℕ} (hstop : stop ≤ self.value.bytes.length)
    (hauthority : self.bounds.authorityEnd = self.lead.length + stop)
    (hextent : self.extent =
      self.lead.length + self.value.bytes.length + self.slash.text.length) :
    self.tryBuild memory = some (
      if self.value.capacity ≠ self.extent ∧ memory.grants self.extent = false then
        .error .allocation
      else .ok (self.bounds.build (self.lead ++ self.value.bytes.take stop ++ self.slash.text ++
        self.value.bytes.drop stop))) := by
  have hlength : (self.lead ++ self.value.bytes.take stop ++ self.slash.text ++
      self.value.bytes.drop stop).length = self.extent := by
    simp only [List.length_append, List.length_take, List.length_drop, hextent]
    omega
  rw [tryBuild]
  by_cases hcapacity : self.value.capacity ≠ self.extent
  · rw [if_pos hcapacity, grant]
    cases hgrants : memory.grants self.extent with
    | false => simp [hcapacity]
    | true =>
      have hcopied : self.copied = some (self.lead ++ self.value.bytes.take stop ++
          self.slash.text ++ self.value.bytes.drop stop) := by
        rw [copied, hauthority, Nat.add_sub_cancel_left, if_pos ⟨by omega, hstop⟩, boxed, if_pos hlength]
      rw [hcopied]
      simp
  · have hfit : self.value.capacity = self.extent := not_not.mp hcapacity
    have hfirst : insert self.value.capacity self.value.bytes 0 self.lead =
        some (self.lead ++ self.value.bytes) := by
      rw [insert, if_pos ⟨by omega, by omega⟩, List.take_zero, List.drop_zero, List.nil_append]
    have htake : (self.lead ++ self.value.bytes).take (self.lead.length + stop) =
        self.lead ++ self.value.bytes.take stop := by
      rw [List.take_append, List.take_of_length_le (by omega), Nat.add_sub_cancel_left]
    have hdrop : (self.lead ++ self.value.bytes).drop (self.lead.length + stop) =
        self.value.bytes.drop stop := by
      rw [List.drop_append, List.drop_of_length_le (by omega), Nat.add_sub_cancel_left,
        List.nil_append]
    have hsecond : insert self.value.capacity (self.lead ++ self.value.bytes)
        self.bounds.authorityEnd self.slash.text = some (self.lead ++ self.value.bytes.take stop ++
          self.slash.text ++ self.value.bytes.drop stop) := by
      rw [insert, hauthority, if_pos, htake, hdrop]
      rw [List.length_append]
      omega
    have hextended : self.extended = some (self.lead ++ self.value.bytes.take stop ++
        self.slash.text ++ self.value.bytes.drop stop) := by
      rw [extended, hfirst, Option.bind_eq_bind, Option.bind_some, hsecond, Option.bind_some,
        boxed, if_pos (hlength.trans hfit.symm)]
    rw [if_neg hcapacity, if_neg (fun h => hcapacity h.1), hextended, Option.map_some]

theorem built_error {value : OwnedText} {error : Error} (h : parse memory value = .error error) :
    built memory value = some (.error error) := by
  rw [built, h]

theorem built_ok {value : OwnedText} {plan : Plan} (h : parse memory value = .ok plan) :
    built memory value = plan.tryBuild memory := by
  rw [built, h]

theorem lead_of_parse {value : OwnedText} {slash : Slash} {extent : ℕ} {bounds : Bounds} :
    (Plan.mk value false slash extent bounds).lead = [] := rfl

/-- A plan that is built is the target that is parsed, whatever the buffer of the string is. Only the
allocation that is not needed cannot fail. -/
theorem built_eq (value : OwnedText) :
    built memory value = some (Target.parse memory value.bytes) ∨
      Target.parse memory value.bytes = .error .allocation ∧
        (∃ target, built memory value = some (.ok target)) ∧
          ∃ extent, memory.grants extent = false := by
  cases habsolute : Absolute.parse value.bytes with
  | error error =>
    left
    rw [built, parse, Target.parse, habsolute]
    rfl
  | ok absolute =>
    obtain ⟨raw, rest, hvalue, hscheme, hparsed, horigin⟩ := Absolute.parse_iff.mp habsolute
    have hrest : absolute.origin.value = rest := Origin.fromUri_value horigin
    have hlength := congrArg List.length hvalue
    simp only [List.length_append, separator, List.length_cons, List.length_nil] at hlength
    have hstop : value.bytes.length - absolute.origin.value.length =
        absolute.scheme.length + 3 + raw.length := by
      rw [hrest]
      omega
    have hraw : (value.bytes.take (absolute.scheme.length + 3 + raw.length)).drop
        (absolute.scheme.length + 3) = raw := by
      have hslice := slice_middle (absolute.scheme ++ separator) raw rest
      rw [← hvalue, List.length_append, slice] at hslice
      exact hslice
    have hlead : (absolute.scheme ++ separator ++ raw).length =
        absolute.scheme.length + 3 + raw.length := by
      rw [List.length_append, List.length_append]
      rfl
    have htake : value.bytes.take (absolute.scheme.length + 3 + raw.length) =
        absolute.scheme ++ separator ++ raw := by
      rw [hvalue, ← hlead, List.take_left]
    have hdrop : value.bytes.drop (absolute.scheme.length + 3 + raw.length) = rest := by
      rw [hvalue, ← hlead, List.drop_left]
    have hstart : (Target.lead (some absolute.scheme)).length = absolute.scheme.length + 3 := by
      rw [length_lead, Option.elim_some]
    have hcapacity : absolute.scheme.length + 3 + raw.length + absolute.origin.length =
        value.bytes.length + absolute.origin.slash.text.length := by
      rw [Origin.length, hrest]
      omega
    -- both check the same offsets, and then plan the same extent
    have hplan : parse memory value = (Bounds.new absolute.scheme.length
        (absolute.scheme.length + 3 + absolute.parsed.host.length)
        (absolute.scheme.length + 3 + raw.length)
        (absolute.scheme.length + 3 + raw.length + absolute.origin.pathStop)).bind fun bounds =>
          (Target.plan memory (value.bytes.length + absolute.origin.slash.text.length)).map
            fun _ => ⟨value, false, absolute.origin.slash,
              value.bytes.length + absolute.origin.slash.text.length, bounds⟩ := by
      rw [parse, habsolute, ← hstop]
      rfl
    have htarget : Target.parse memory value.bytes = (Bounds.new absolute.scheme.length
        (absolute.scheme.length + 3 + absolute.parsed.host.length)
        (absolute.scheme.length + 3 + raw.length)
        (absolute.scheme.length + 3 + raw.length + absolute.origin.pathStop)).bind fun bounds =>
          (buffer memory (value.bytes.length + absolute.origin.slash.text.length)).map
            fun _ => bounds.build (absolute.scheme ++ separator ++ raw ++
              (absolute.origin.slash.text ++ rest)) := by
      have hpack : Target.parse memory value.bytes = pack memory (some absolute.scheme)
          ((value.bytes.take (value.bytes.length - absolute.origin.value.length)).drop
            (absolute.scheme.length + 3)) absolute.parsed absolute.origin := by
        rw [Target.parse, habsolute]
        rfl
      rw [hpack, hstop, hraw, pack, hstart, hcapacity, Origin.text, hrest]
      rfl
    rw [htarget]
    cases hbounds : Bounds.new absolute.scheme.length
        (absolute.scheme.length + 3 + absolute.parsed.host.length)
        (absolute.scheme.length + 3 + raw.length)
        (absolute.scheme.length + 3 + raw.length + absolute.origin.pathStop) with
    | error error =>
      rw [hbounds] at hplan
      exact .inl (built_error hplan)
    | ok bounds =>
      obtain ⟨-, hbuilt⟩ := Bounds.new_iff.mp hbounds
      cases hextent : Target.plan memory
          (value.bytes.length + absolute.origin.slash.text.length) with
      | error error =>
        left
        rw [hbounds, hextent] at hplan
        rw [buffer, hextent, built_error hplan]
        rfl
      | ok planned =>
        rw [hbounds, hextent] at hplan
        have hbuild := @tryBuild_eq memory ⟨value, false, absolute.origin.slash,
          value.bytes.length + absolute.origin.slash.text.length, bounds⟩
          (absolute.scheme.length + 3 + raw.length) (by dsimp only; omega)
          (by rw [hbuilt, lead_of_parse, List.length_nil, Nat.zero_add])
          (by rw [lead_of_parse, List.length_nil, Nat.zero_add])
        rw [lead_of_parse] at hbuild
        dsimp only at hbuild
        rw [htake, hdrop, List.nil_append, List.append_assoc _ _ rest] at hbuild
        rw [built_ok hplan, hbuild, buffer, hextent]
        cases hgrants : memory.grants (value.bytes.length + absolute.origin.slash.text.length) with
        | true =>
          left
          rw [if_neg (by simp), grant, hgrants, if_pos rfl]
          rfl
        | false =>
          have hgrant : grant memory (value.bytes.length + absolute.origin.slash.text.length) =
              .error .allocation := by
            rw [grant, hgrants, if_neg Bool.false_ne_true]
          by_cases hcapacity : value.capacity ≠
              value.bytes.length + absolute.origin.slash.text.length
          · left
            rw [if_pos ⟨hcapacity, rfl⟩, hgrant]
            rfl
          · right
            rw [if_neg (fun h => hcapacity h.1), hgrant]
            exact ⟨rfl, ⟨_, rfl⟩, _, hgrants⟩

theorem scheme_http : SchemeText httpScheme :=
  .mk (by decide) (by decide +kernel)

theorem http_spec {value : OwnedText} {plan : Plan} (h : http memory value = .ok plan) :
    ∃ answer, plan.tryBuild memory = some answer ∧ ∀ target, answer = .ok target →
      ∃ parsed, target.Has ⟨some httpScheme, value.bytes, parsed, [0x2f], none⟩ := by
  simp only [http, Except.bind_eq_ok_iff, authority_iff] at h
  obtain ⟨parsed, hparsed, bounds, hbounds, _, -, h⟩ := h
  obtain rfl := Except.ok.inj h
  obtain ⟨⟨-, -, -, hlt⟩, rfl⟩ := Bounds.new_iff.mp hbounds
  have hlead : (Plan.mk value true .insert (7 + value.bytes.length + 1)
      ⟨some 4, 7 + parsed.host.length, 7 + value.bytes.length, 7 + value.bytes.length + 1⟩).lead =
        httpScheme ++ separator := rfl
  have hbuild := @tryBuild_eq memory (Plan.mk value true .insert (7 + value.bytes.length + 1)
      ⟨some 4, 7 + parsed.host.length, 7 + value.bytes.length, 7 + value.bytes.length + 1⟩)
    value.bytes.length le_rfl (by rw [hlead]; rfl) (by rw [hlead]; rfl)
  refine ⟨_, hbuild, ?_⟩
  intro target htarget
  split at htarget
  · exact absurd htarget (by simp)
  · obtain rfl := Except.ok.inj htarget
    rw [List.take_length, List.drop_length, hlead]
    refine ⟨parsed, ⟨by simpa using scheme_http, hparsed, Origin.root_has.valid⟩, ?_, rfl, rfl, rfl,
      rfl, hlt⟩
    simp [Bounds.build, Components.text, Target.lead, Slash.text, queryText]

end Build

end Plan

/-! ## Constructed targets -/

end Target

/-- The origins and targets that the public functions construct. -/
inductive Constructed (memory : Memory) : Origin ⊕ Target → Prop
  | root : Constructed memory (.inl .root)
  | origin {value : Bytes} {origin : Origin} (h : Origin.parse value = .ok origin) :
      Constructed memory (.inl origin)
  | absolute {value : Bytes} {absolute : Absolute} (h : Absolute.parse value = .ok absolute) :
      Constructed memory (.inl absolute.origin)
  | borrowed {target : Target} (htarget : Constructed memory (.inr target)) :
      Constructed memory (.inl target.origin)
  | parse {value : Bytes} {target : Target} (h : Target.parse memory value = .ok target) :
      Constructed memory (.inr target)
  | new {raw : Bytes} {origin : Origin} {target : Target}
      (horigin : Constructed memory (.inl origin))
      (h : Target.new memory raw origin = .ok target) : Constructed memory (.inr target)
  | fromHost {host : Bytes} {port : Option ℕ} {origin : Origin} {target : Target}
      (horigin : Constructed memory (.inl origin))
      (h : Target.fromHost memory host port origin = .ok target) : Constructed memory (.inr target)
  | retarget {target result : Target} {raw : Bytes} (htarget : Constructed memory (.inr target))
      (h : target.retarget memory raw = .ok result) : Constructed memory (.inr result)
  | withOrigin {target result : Target} {origin : Origin}
      (htarget : Constructed memory (.inr target)) (horigin : Constructed memory (.inl origin))
      (h : target.withOrigin memory origin = .ok result) : Constructed memory (.inr result)
  | clone {target result : Target} (htarget : Constructed memory (.inr target))
      (h : target.tryClone memory = .ok result) : Constructed memory (.inr result)
  | normalize {target result : Target} (htarget : Constructed memory (.inr target))
      (h : target.normalize memory = some (.ok result)) : Constructed memory (.inr result)
  | resolve {value : Bytes} {reference : Relative} {base result : Target}
      (hreference : Relative.parse value = .ok reference)
      (hbase : Constructed memory (.inr base))
      (h : reference.resolve memory base = some (.ok result)) : Constructed memory (.inr result)
  | plan {value : OwnedText} {target : Target}
      (h : Target.Plan.built memory value = some (.ok target)) : Constructed memory (.inr target)
  | http {value : OwnedText} {plan : Target.Plan} {target : Target}
      (hplan : Target.Plan.http memory value = .ok plan)
      (h : plan.tryBuild memory = some (.ok target)) : Constructed memory (.inr target)

/-- What is constructed has parts. -/
def HasParts : Origin ⊕ Target → Prop
  | .inl origin => ∃ path query, origin.Has path query
  | .inr target => ∃ parts, target.Has parts

/-- The same allocator, when it grants everything. -/
def Memory.granting (memory : Memory) : Memory :=
  { memory with grants := fun _ => true }

namespace Target.Plan

variable {memory : Memory} {value : OwnedText} {target : Target}

theorem built_granting (h : built memory value = some (.ok target)) :
    built memory.granting value = some (.ok target) := by
  have hparse : parse memory.granting value = parse memory value := rfl
  rw [built] at h ⊢
  rw [hparse]
  cases hplan : parse memory value with
  | error error =>
    rw [hplan] at h
    exact absurd h (by simp)
  | ok plan =>
    rw [hplan] at h
    dsimp only at h ⊢
    rw [tryBuild] at h ⊢
    split
    · rename_i hcapacity
      rw [if_pos hcapacity] at h
      cases hgrant : grant memory plan.extent with
      | error error =>
        rw [hgrant] at h
        exact absurd h (by simp)
      | ok granted =>
        rw [hgrant] at h
        exact h
    · rename_i hcapacity
      rwa [if_neg hcapacity] at h

theorem parse_of_built (h : built memory value = some (.ok target)) :
    Target.parse memory.granting value.bytes = .ok target := by
  have hbuilt := built_granting h
  rcases @built_eq memory.granting value with heq | ⟨-, -, extent, hgrants⟩
  · exact Option.some.inj (heq.symm.trans hbuilt)
  · exact absurd hgrants (by simp [Memory.granting])

theorem built_has (h : built memory value = some (.ok target)) : ∃ parts, target.Has parts := by
  obtain ⟨parts, hparts, -⟩ := Target.parse_has (parse_of_built h)
  exact ⟨parts, hparts⟩

end Target.Plan

/-- Every value that can be constructed has parts. -/
theorem Constructed.has {memory : Memory} {value : Origin ⊕ Target}
    (h : Constructed memory value) : HasParts value := by
  induction h with
  | root => exact ⟨_, _, Origin.root_has⟩
  | origin h => exact Origin.parse_has h
  | absolute h =>
    obtain ⟨raw, rest, -, -, -, horigin⟩ := Absolute.parse_iff.mp h
    exact Origin.fromUri_has horigin
  | borrowed htarget ih =>
    obtain ⟨parts, hparts⟩ := ih
    exact ⟨_, _, hparts.origin_has⟩
  | parse h =>
    obtain ⟨parts, hparts, -⟩ := Target.parse_has h
    exact ⟨parts, hparts⟩
  | new horigin h ih =>
    obtain ⟨path, query, horigin⟩ := ih
    obtain ⟨parsed, hparsed⟩ := Target.new_has horigin h
    exact ⟨_, hparsed⟩
  | fromHost horigin h ih =>
    obtain ⟨path, query, horigin⟩ := ih
    obtain ⟨raw, parsed, hparsed⟩ := Target.fromHost_has horigin h
    exact ⟨_, hparsed⟩
  | retarget htarget h ih =>
    obtain ⟨parts, hparts⟩ := ih
    obtain ⟨parsed, hparsed⟩ := Target.retarget_has hparts h
    exact ⟨_, hparsed⟩
  | withOrigin htarget horigin h ihTarget ihOrigin =>
    obtain ⟨parts, hparts⟩ := ihTarget
    obtain ⟨path, query, horigin⟩ := ihOrigin
    exact ⟨_, Target.withOrigin_has hparts horigin h⟩
  | clone htarget h ih =>
    rw [Target.tryClone_eq h]
    exact ih
  | normalize htarget h ih =>
    obtain ⟨parts, hparts⟩ := ih
    obtain ⟨answer, hanswer, hhas, -⟩ := @Target.normalize_has memory _ _ hparts
    exact ⟨_, hhas _ (Option.some.inj (hanswer.symm.trans h))⟩
  | resolve hreference hbase h ih =>
    obtain ⟨parts, hparts⟩ := ih
    obtain ⟨path, query, hrelative⟩ := Relative.parse_has hreference
    obtain ⟨answer, hanswer, hhas, -⟩ := @Relative.resolve_has memory _ _ _ _ _ hparts hrelative
    exact ⟨_, hhas _ (Option.some.inj (hanswer.symm.trans h))⟩
  | plan h => exact Target.Plan.built_has h
  | http hplan h =>
    obtain ⟨answer, hanswer, hhas⟩ := Target.Plan.http_spec hplan
    obtain ⟨parsed, hparsed⟩ := hhas _ (Option.some.inj (hanswer.symm.trans h))
    exact ⟨_, hparsed⟩

/-! ## Parsing again -/

/-- The target of given parts. -/
def Components.target (self : Components) : Target where
  value := self.text
  schemeEnd := self.scheme.map List.length
  hostEnd := (Target.lead self.scheme).length + self.parsed.host.length
  authorityEnd := (Target.lead self.scheme).length + self.raw.length
  pathEnd := (Target.lead self.scheme).length + self.raw.length + self.path.length

theorem Components.Valid.target_has {parts : Components} (h : parts.Valid)
    (hlt : parts.target.pathEnd < 2 ^ 32) : parts.target.Has parts :=
  ⟨h, rfl, rfl, rfl, rfl, rfl, hlt⟩

namespace Target

variable {memory : Memory} {target : Target} {parts : Components}

theorem Has.ordered (h : target.Has parts) : target.start ≤ target.hostEnd ∧
    target.hostEnd ≤ target.authorityEnd ∧ target.authorityEnd < target.pathEnd ∧
      target.pathEnd ≤ target.value.length := by
  have hraw := congrArg List.length h.valid.authority.raw_eq
  obtain ⟨rest, hpath⟩ := h.valid.origin.slash
  have hlength := congrArg List.length hpath
  rw [List.length_append] at hraw
  rw [List.length_cons] at hlength
  rw [h.start_eq, h.hostEnd_eq, h.authorityEnd_eq, h.pathEnd_eq, h.length_value]
  omega

theorem buffer_granted (hmemory : Relative.Granted memory) (capacity : ℕ) :
    buffer memory capacity = .ok () := by
  simp only [buffer, plan, grant, (hmemory _).1, (hmemory _).2, if_true]
  rfl

/-- With a scheme in front, the string of a target without one is parsed as its parts. -/
theorem Has.parse_with (h : target.Has parts) (hnone : parts.scheme = none)
    (hmemory : Relative.Granted memory) {scheme : Bytes} (hscheme : SchemeText scheme)
    (hlt : scheme.length + 3 + target.pathEnd < 2 ^ 32) :
    ∃ result, parse memory (scheme ++ separator ++ target.value) = .ok result ∧
      result.Has { parts with scheme := some scheme } := by
  have hvalid : ({ parts with scheme := some scheme } : Components).Valid :=
    ⟨by simpa using hscheme, h.valid.authority, h.valid.origin⟩
  have hhas := hvalid.target_has (by
    rw [h.pathEnd_eq, hnone] at hlt
    rw [Components.target]
    dsimp only
    rw [length_lead, Option.elim_some]
    rw [lead, List.length_nil] at hlt
    omega)
  refine ⟨_, ?_, hhas⟩
  have hparse := hhas.parse_eq rfl (buffer_granted hmemory _)
  have hvalue : scheme ++ separator ++ target.value =
      ({ parts with scheme := some scheme } : Components).target.value := by
    rw [h.value_eq, Components.target, Components.text, Components.text, hnone]
    simp [lead]
  rw [hvalue, hparse]

theorem Has.parse_origin (h : target.Has parts) :
    Origin.parse target.pathQuery = .ok target.origin := by
  have hlt := h.pathEnd_lt
  rw [h.pathEnd_eq] at hlt
  obtain ⟨plan, hplan, hend⟩ := h.valid.origin.scan
  have hstop := h.origin_has.pathStop_eq
  obtain ⟨rest, hpath⟩ := h.valid.origin.slash
  have hslash : target.pathQuery.head? = some 0x2f := by
    rw [h.pathQuery_eq, hpath, List.cons_append, List.head?_cons]
  rw [Origin.parse, if_pos hslash, Origin.validated_iff]
  refine ⟨plan, h.pathQuery_eq ▸ hplan, by omega, ?_⟩
  rw [hend, ← hstop]
  rfl

/-- The offsets of every target that can be constructed are where its parts end. With a scheme its
string is parsed as the same target; without one its authority and its origin are, and so is its
string with a scheme in front. A plan that is built is the target that is parsed. -/
theorem offsets (memory : Memory) :
    (∀ target, Constructed memory (.inr target) → ∃ parts, target.Has parts ∧
      (target.start ≤ target.hostEnd ∧ target.hostEnd ≤ target.authorityEnd ∧
        target.authorityEnd < target.pathEnd ∧ target.pathEnd ≤ target.value.length) ∧
      (target.scheme = parts.scheme ∧ target.rawAuthority = parts.raw ∧
        target.parts = parts.parsed ∧ target.path = parts.path ∧ target.query = parts.query) ∧
      (Relative.Granted memory → target.scheme.isSome →
        parse memory target.value = .ok target) ∧
      (authority target.rawAuthority = .ok target.parts ∧
        Origin.parse target.pathQuery = .ok target.origin) ∧
      (Relative.Granted memory → target.scheme = none → ∀ scheme, SchemeText scheme →
        scheme.length + 3 + target.pathEnd < 2 ^ 32 →
          ∃ result, parse memory (scheme ++ separator ++ target.value) = .ok result ∧
            result.Has { parts with scheme := some scheme })) ∧
    (∀ value : OwnedText, Plan.built memory value = some (parse memory value.bytes) ∨
      parse memory value.bytes = .error .allocation ∧
        (∃ target, Plan.built memory value = some (.ok target)) ∧
          ∃ extent, memory.grants extent = false) := by
  refine ⟨?_, Plan.built_eq⟩
  intro target htarget
  obtain ⟨parts, h⟩ := htarget.has
  refine ⟨parts, h, h.ordered,
    ⟨h.scheme_eq, h.rawAuthority_eq, h.parts_eq, h.path_eq, h.query_eq⟩, ?_, ⟨?_, h.parse_origin⟩,
    ?_⟩
  · intro hmemory hscheme
    rw [h.scheme_eq] at hscheme
    exact h.parse_eq hscheme (buffer_granted hmemory _)
  · rw [h.rawAuthority_eq, h.parts_eq, authority_iff]
    exact h.valid.authority
  · intro hmemory hnone scheme hscheme hlt
    rw [h.scheme_eq] at hnone
    exact h.parse_with hnone hmemory hscheme hlt

/-- An allocator that refuses nothing. -/
def unlimited : Memory where
  plans _ := true
  grants _ := true
  fresh extent := List.replicate extent 0
  length_fresh _ := List.length_replicate

/-- `http:` with an empty port, and the path `//x/y`: a target without a scheme, whose string is
parsed as one with a scheme and another authority. -/
theorem offsets_ambiguous : ∃ target result : Target, Constructed unlimited (.inr target) ∧
    parse unlimited target.value = .ok result ∧ target.scheme = none ∧
      result.scheme = some Plan.httpScheme ∧ target.rawAuthority ≠ result.rawAuthority := by
  have hgranted : Relative.Granted unlimited := fun _ => ⟨rfl, rfl⟩
  have hhost (name : Bytes) (hne : name ≠ []) (h : ∀ byte ∈ name, isRegByte byte = true) :
      Host name := by
    refine .name ⟨hne, ?_⟩
    clear hne
    induction name with
    | nil => exact .nil
    | cons byte name ih =>
      obtain ⟨hbyte, hname⟩ := List.forall_mem_cons.mp h
      exact .plain hbyte (ih hname)
  have hport : AuthorityText [0x68, 0x74, 0x74, 0x70, 0x3a] ⟨Plan.httpScheme, some []⟩ :=
    .port (hhost Plan.httpScheme (by decide) (by decide +kernel)) (by simp)
  have hname : AuthorityText [0x78] ⟨[0x78], none⟩ := .alone (hhost [0x78] (by decide) (by decide +kernel))
  have hslashes : OriginText [0x2f, 0x2f, 0x78, 0x2f, 0x79] none :=
    ⟨⟨_, rfl⟩, .plain (by decide) (.plain (by decide) (.plain (by decide) (.plain (by decide)
      (.plain (by decide) .nil)))), by simp⟩
  have hslash : OriginText [0x2f, 0x79] none :=
    ⟨⟨_, rfl⟩, .plain (by decide) (.plain (by decide) .nil), by simp⟩
  -- the origin is parsed, and packed behind the authority
  obtain ⟨plan, hplan, hend⟩ := hslashes.scan
  have horigin : Origin.parse [0x2f, 0x2f, 0x78, 0x2f, 0x79] =
      .ok ⟨[0x2f, 0x2f, 0x78, 0x2f, 0x79], 5, .present⟩ := by
    rw [Origin.parse, if_pos (List.head?_cons ..), Origin.validated_iff]
    exact ⟨plan, hplan, by rw [hend]; norm_num, by rw [hend]; rfl⟩
  have hhas : (Origin.mk [0x2f, 0x2f, 0x78, 0x2f, 0x79] 5 .present).Has
      [0x2f, 0x2f, 0x78, 0x2f, 0x79] none := ⟨hslashes, rfl, rfl⟩
  obtain ⟨target, htarget⟩ := @exists_pack unlimited none _ _
    (Origin.mk [0x2f, 0x2f, 0x78, 0x2f, 0x79] 5 .present) hport (by decide)
    (buffer_granted hgranted _)
  have hparts := pack_has (by simp) hport hhas htarget
  have hresult : (Components.mk (some Plan.httpScheme) [0x78] ⟨[0x78], none⟩ [0x2f, 0x79]
      none).Valid := ⟨by simpa using Plan.scheme_http, hname, hslash⟩
  have hresultHas := hresult.target_has (by decide)
  have hparse := hresultHas.parse_eq rfl (buffer_granted hgranted _)
  have hnew : new unlimited [0x68, 0x74, 0x74, 0x70, 0x3a]
      ⟨[0x2f, 0x2f, 0x78, 0x2f, 0x79], 5, .present⟩ = .ok target := by
    rw [new, authority_iff.mpr hport]
    exact htarget
  refine ⟨target, _, .new (.origin horigin) hnew, ?_, hparts.scheme_eq, hresultHas.scheme_eq, ?_⟩
  · rw [hparts.value_eq]
    exact hparse
  · rw [hparts.rawAuthority_eq, hresultHas.rawAuthority_eq]
    decide

end Target

end Sark.Uri
