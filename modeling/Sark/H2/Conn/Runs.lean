import Sark.H2.Conn.Occupancy

/-!
# Runs of the stream registry

The callers of the registry keep a contract (`Machine.Allowed`): a duplex session is opened on an
active stream whose head is complete and that no session holds yet, it is released by the one who
opened it, and the end of a stream is queued once, behind its head. What the contract refers to is
recorded in the run (`Machine.held`, `Machine.ended`); `Tracks` ties it to the records.

* `Machine.Sound`: the invariant of a connection.
* `Machine.Sound.step`: every operation keeps it, and reaches no unreachable branch.
* `Machine.run_sound`: it holds behind every run.
-/

namespace Sark.H2

/-! ## Records -/

theorem RecordState.view_release {state : RecordState} {notice : Notice}
    {left : Option RecordState} (h : state.release notice = some left) (view : View)
    (hview : view ≠ .closed) : left.map RecordState.view = some view ↔ state.view = view := by
  cases state with
  | active live =>
    obtain ⟨peer, -, rfl⟩ := Option.map_eq_some_iff.mp h
    simp [RecordState.view]
  | reset pending owner =>
    cases owner with
    | none =>
      obtain rfl : left = some (.reset pending none) := by
        cases notice <;> simp_all [release]
      simp [RecordState.view]
    | some owner =>
      obtain ⟨owner', -, rfl⟩ := Option.map_eq_some_iff.mp h
      simp [RecordState.view]
  | closed owner =>
    obtain ⟨owner', -, rfl⟩ := Option.map_eq_some_iff.mp h
    cases owner' <;> simp [RecordState.view, hview.symm]

theorem RecordState.release_of_ne (state : RecordState) {notice : Notice} (h : notice ≠ .duplex) :
    ∃ left, state.release notice = some left ∧ left.any isDuplex = state.isDuplex ∧
      (left.any isEnding = true → state.isEnding = true) := by
  rcases state with ⟨⟨state, peer, window⟩⟩ | ⟨pending, _ | owner⟩ | owner
  · cases peer <;> cases notice <;>
      first | exact absurd rfl h | exact ⟨_, rfl, rfl, by simp [isEnding, Live.isEnded]⟩
  · cases notice <;> first | exact absurd rfl h | exact ⟨_, rfl, rfl, by simp [isEnding]⟩
  · cases owner <;> cases notice <;>
      first | exact absurd rfl h | exact ⟨_, rfl, rfl, by simp [isEnding]⟩
  · cases owner <;> cases notice <;>
      first | exact absurd rfl h | exact ⟨_, rfl, rfl, by simp [isEnding]⟩

theorem RecordState.release_duplex {state : RecordState} (h : state.isDuplex = true) :
    ∃ left, state.release .duplex = some left ∧ left.any isDuplex = false ∧
      (left.any isEnding = true → state.isEnding = true) := by
  rcases state with ⟨⟨state, peer, window⟩⟩ | ⟨pending, _ | owner⟩ | owner
  · cases peer <;>
      first
        | exact Bool.noConfusion h
        | exact ⟨_, rfl, rfl, by simp [isEnding, Live.isEnded]⟩
  · exact absurd h (by simp [isDuplex])
  · cases owner <;>
      first | exact Bool.noConfusion h | exact ⟨_, rfl, rfl, by simp [isEnding]⟩
  · cases owner <;>
      first | exact Bool.noConfusion h | exact ⟨_, rfl, rfl, by simp [isEnding]⟩

/-- The touches of a record are in order: its end is queued once, behind its head. -/
def InOrder (section' : Section) (ended : Bool) : List Touch → Prop
  | [] => True
  | .assign _ _ :: touches => InOrder section' ended touches
  | .completeHead :: touches => InOrder .trailing ended touches
  | .queueEnd :: touches => section' = .trailing ∧ ended = false ∧ InOrder section' true touches

theorem Active.touch_inOrder {active : Active} {ended : Bool} {touches : List Touch}
    (h : InOrder active.section ended touches) (hended : active.peer.isEnded = true → ended = true) :
    ∃ next, touches.foldlM Active.touch active = some next ∧
      next.peer.isDuplex = active.peer.isDuplex ∧
      (next.peer.isEnded = true → ended = true ∨ Touch.queueEnd ∈ touches) := by
  induction touches generalizing active ended with
  | nil => exact ⟨active, rfl, rfl, fun hend => Or.inl (hended hend)⟩
  | cons touch touches ih =>
    obtain ⟨next, htouch, hdone⟩ : ∃ next, active.touch touch = some next ∧
        InOrder next.section (ended || touch == .queueEnd) touches ∧
        (next.peer.isEnded = true → (ended || touch == .queueEnd) = true) ∧
        next.peer.isDuplex = active.peer.isDuplex := by
      obtain ⟨state, peer, window⟩ := active
      cases touch with
      | assign state' window' =>
        have hmore : (ended || Touch.assign state' window' == .queueEnd) = ended := by simp
        rw [hmore]
        exact ⟨⟨state', peer, window'⟩, rfl, h, hended, rfl⟩
      | completeHead =>
        have hmore : (ended || Touch.completeHead == .queueEnd) = ended := by simp
        rw [hmore]
        cases peer with
        | initial => exact ⟨⟨state, .trailing, window⟩, rfl, h, nofun, rfl⟩
        | trailing | duplex | «end» | duplexEnd => exact ⟨_, rfl, h, hended, rfl⟩
      | queueEnd =>
        obtain ⟨hsection, rfl, horder⟩ := h
        cases peer with
        | initial => contradiction
        | trailing | duplex => exact ⟨_, rfl, horder, fun _ => rfl, rfl⟩
        | «end» | duplexEnd => exact absurd (hended rfl) (by simp)
    obtain ⟨horder, hend, hduplex⟩ := hdone
    obtain ⟨last, hlast, hduplex', hend'⟩ := ih horder hend
    refine ⟨last, ?_, hduplex'.trans hduplex, fun hlastEnd => ?_⟩
    · rw [List.foldlM_cons, htouch]
      exact hlast
    · rcases hend' hlastEnd with h | h
      · rcases Bool.or_eq_true _ _ ▸ h with h | h
        · exact Or.inl h
        · exact Or.inr (by rw [beq_iff_eq] at h; simp [h])
      · exact Or.inr (List.mem_cons_of_mem touch h)

/-! ## What the application holds -/

/-- The keys that a session holds, and those whose end is queued, are those of the records. -/
structure Tracks (registry : Registry) (held ended : List Key) : Prop where
  nodup : held.Nodup
  duplex : ∀ key, key ∈ held ↔ registry.known RecordState.isDuplex key = true
  ended : ∀ key, registry.known RecordState.isEnding key = true → key ∈ ended

section Tracks

variable {self next : Registry} {held ended ended' : List Key}

theorem Tracks.mono (h : Tracks self held ended) (hsub : ended ⊆ ended') :
    Tracks self held ended' :=
  ⟨h.nodup, h.duplex, fun key hkey => hsub (h.ended key hkey)⟩

theorem Tracks.write (h : Tracks self held ended) {key : Key} (howns : self.Owns key)
    {state : Option RecordState}
    (hslots : next.slots = (self.put key.slot (state.map fun state => ⟨key, state⟩)).slots)
    (hduplex : state.any RecordState.isDuplex = self.known RecordState.isDuplex key)
    (hsub : ended ⊆ ended') (hending : state.any RecordState.isEnding = true → key ∈ ended') :
    Tracks next held ended' := by
  refine ⟨h.nodup, fun other => ?_, fun other hother => ?_⟩
  · rw [h.duplex, Registry.known_of_slots howns hslots, hduplex, Function.update_eq_self]
  · rw [Registry.known_of_slots howns hslots] at hother
    by_cases hne : other = key
    · subst hne
      rw [Function.update_self] at hother
      exact hending hother
    · rw [Function.update_of_ne hne] at hother
      exact hsub (h.ended other hother)

theorem Tracks.congr (h : Tracks self held ended) (hslots : next.slots = self.slots) :
    Tracks next held ended := by
  have hknown (f : RecordState → Bool) : next.known f = self.known f := by
    funext key
    simp only [Registry.known, Registry.slot, Registry.entryAt, hslots]
  refine ⟨h.nodup, ?_, ?_⟩
  · rw [hknown]
    exact h.duplex
  · rw [hknown]
    exact h.ended

theorem tracks_new (capacity : ℕ) : Tracks (.new capacity) [] [] := by
  have hknown (f : RecordState → Bool) (key : Key) : (Registry.new capacity).known f key = false := by
    have hentry : (Registry.new capacity).entryAt key.slot = none := by
      unfold Registry.entryAt Registry.new
      rw [List.getElem?_replicate]
      split <;> rfl
    simp [Registry.known, Registry.slot, hentry]
  exact ⟨List.nodup_nil, by simp [hknown], by simp [hknown]⟩

theorem Tracks.wake (h : Tracks self held ended) {slot : ℕ} {key : Key} {active : Active}
    (hslot : key.slot = slot) (hentry : self.entryAt slot = some ⟨key, .active active⟩)
    (window : Window) : Tracks (self.wake slot key active window) held ended := by
  subst hslot
  have hslots : (self.wake key.slot key active window).slots = (self.put key.slot
      (some ⟨key, .active ⟨active.state, active.peer, window⟩⟩)).slots := by
    unfold Registry.wake
    dsimp only
    split <;> rfl
  refine @Tracks.write self _ held ended ended h key (Registry.owns_of_entryAt hentry) (some _)
    hslots ?_ (List.Subset.refl _) fun hending => h.ended key ?_
  · rw [Registry.known_of_entryAt hentry]
    rfl
  · rw [Registry.known_of_entryAt hentry]
    exact hending

variable {endpoint : Endpoint}

theorem Tracks.addSend (h : Tracks self held ended) (hsound : self.Sound endpoint) (id : StreamId)
    (delta : ℕ) : Tracks (self.addSend id delta) held ended := by
  unfold Registry.addSend
  split
  · exact h
  · split
    next hentry =>
      split
      · split
        · exact h
        · exact h.wake (hsound.slot _ _ hentry) hentry _
      · exact h
    · exact h

theorem Tracks.adjustFrom (h : Tracks self held ended) (hsound : self.Sound endpoint) (delta : ℤ)
    (slot count : ℕ) : Tracks (self.adjustFrom delta slot count) held ended := by
  induction count generalizing self slot with
  | zero => exact h
  | succ count ih =>
    rw [Registry.adjustFrom]
    split
    next hentry =>
      split
      · exact h
      · exact ih (h.wake (hsound.slot _ _ hentry) hentry _) (hsound.wake hentry _) _
    · exact ih h hsound _

end Tracks

/-! ## Operations on records -/

/-- The end of a key is noted. -/
def noted (key : Key) (touches : List Touch) (ended : List Key) : List Key :=
  if Touch.queueEnd ∈ touches then key :: ended else ended

theorem subset_noted (key : Key) (touches : List Touch) (ended : List Key) :
    ended ⊆ noted key touches ended := by
  unfold noted
  split
  · exact List.subset_cons_self key ended
  · exact List.Subset.refl ended

namespace Registry

variable {endpoint : Endpoint} {self : Registry} {held ended : List Key}

theorem Sound.removeKey_of_active (h : self.Sound endpoint) (htracks : Tracks self held ended)
    {key : Key} {active : Active} (hentry : self.entryAt key.slot = some ⟨key, .active active⟩)
    (reset : Bool) :
    ∃ next, self.remove endpoint key ⟨key, .active active⟩ reset = some next ∧
      next.Sound endpoint ∧ Tracks next held ended := by
  obtain ⟨next, hnext, hsound, hslots⟩ := h.remove hentry reset
  refine ⟨next, hnext, hsound, htracks.write (owns_of_entryAt hentry) hslots ?_
    (List.Subset.refl _) ?_⟩
  · rw [known_of_entryAt hentry, RecordState.isDuplex, ← Live.isDuplex_retire _ reset]
    cases active.peer.retire reset <;> rfl
  · cases active.peer.retire reset <;> simp [RecordState.isEnding]

theorem Sound.reset_of_active (h : self.Sound endpoint) (htracks : Tracks self held ended)
    {key : Key} {active : Active} (hentry : self.entryAt key.slot = some ⟨key, .active active⟩)
    (error : UInt32) (notify : Bool) :
    ∃ next, self.reset endpoint key ⟨key, .active active⟩ error notify = some next ∧
      next.Sound endpoint ∧ Tracks next held ended := by
  obtain ⟨next, hnext, hsound, hslots⟩ := h.reset hentry error notify
  refine ⟨next, hnext, hsound, @Tracks.write self next held ended ended htracks key
    (owns_of_entryAt hentry) (some _) hslots ?_ (List.Subset.refl _) (by simp [RecordState.isEnding])⟩
  rw [known_of_entryAt hentry, RecordState.isDuplex, ← Live.isDuplex_retire _ notify]
  rfl

theorem Sound.touch_of_active (h : self.Sound endpoint) (htracks : Tracks self held ended)
    {key : Key} {active : Active} (hentry : self.entryAt key.slot = some ⟨key, .active active⟩)
    {touches : List Touch} (horder : InOrder active.section (decide (key ∈ ended)) touches) :
    ∃ next, touches.foldlM Active.touch active = some next ∧
      (self.put key.slot (some ⟨key, .active next⟩)).Sound endpoint ∧
      (self.put key.slot (some ⟨key, .active next⟩)).entryAt key.slot =
        some ⟨key, .active next⟩ ∧
      Tracks (self.put key.slot (some ⟨key, .active next⟩)) held (noted key touches ended) := by
  have howns := owns_of_entryAt hentry
  have hended : active.peer.isEnded = true → decide (key ∈ ended) = true := by
    intro hend
    exact decide_eq_true (htracks.ended key ((known_of_entryAt hentry).trans hend))
  obtain ⟨next, hnext, hduplex, hend⟩ := Active.touch_inOrder horder hended
  refine ⟨next, hnext, ?_, by rw [entryAt_put howns.1, if_pos rfl], ?_⟩
  · refine @Sound.put_same endpoint self h key howns (some (.active next)) fun view _ => ?_
    rw [view_of_entryAt hentry]
    rfl
  · refine @Tracks.write self _ held ended _ htracks key howns (some (.active next)) rfl ?_
      (subset_noted key touches ended) fun hending => ?_
    · rw [known_of_entryAt hentry]
      exact hduplex
    · rcases hend hending with hmem | hmem
      · exact subset_noted key touches ended (of_decide_eq_true hmem)
      · rw [noted, if_pos hmem]
        exact List.mem_cons_self

theorem Sound.edit (h : self.Sound endpoint) (htracks : Tracks self held ended) {key : Key}
    {state : RecordState} (hentry : self.entryAt key.slot = some ⟨key, state⟩) {edit : Edit}
    (horder : ∀ active, state = .active active →
      InOrder active.section (decide (key ∈ ended)) edit.touches) :
    ∃ next, self.edit endpoint key ⟨key, state⟩ edit = some next ∧ next.Sound endpoint ∧
      Tracks next held (noted key edit.touches ended) := by
  cases state with
  | reset | closed =>
    exact ⟨self, rfl, h, htracks.mono (subset_noted key edit.touches ended)⟩
  | active active =>
    obtain ⟨next, hnext, hsound, hentry', htracks'⟩ :=
      h.touch_of_active htracks hentry (horder active rfl)
    simp only [Registry.edit, hnext, Option.bind_some]
    cases edit.action with
    | none => exact ⟨_, rfl, hsound, htracks'⟩
    | some action =>
      cases action with
      | keep => exact ⟨_, rfl, hsound, htracks'⟩
      | remove => exact hsound.removeKey_of_active htracks' hentry' false
      | reset error notify => exact hsound.reset_of_active htracks' hentry' error notify

theorem Sound.entry_eq_some (h : self.Sound endpoint) {key : Key} {record : Record}
    (hentry : self.entry key = some record) :
    ∃ active, record = ⟨key, .active active⟩ ∧ self.entryAt key.slot = some ⟨key, .active active⟩ := by
  unfold entry at hentry
  split at hentry
  next hmem =>
    obtain ⟨state, hstate, -⟩ := h.entryAt_of_mem hmem
    rw [hstate] at hentry
    obtain ⟨hrecord, hactive⟩ := Option.filter_eq_some_iff.mp hentry
    obtain rfl := Option.some.inj hrecord
    cases state with
    | active active => exact ⟨active, rfl, hstate⟩
    | reset | closed => contradiction
  · contradiction

theorem Sound.removeKey (h : self.Sound endpoint) (htracks : Tracks self held ended) (key : Key)
    (reset : Bool) :
    ∃ next, self.removeKey endpoint key reset = some next ∧ next.Sound endpoint ∧
      Tracks next held ended := by
  unfold Registry.removeKey
  split
  · exact ⟨self, rfl, h, htracks⟩
  next record hrecord =>
    obtain ⟨active, rfl, hentry⟩ := h.entry_eq_some hrecord
    exact h.removeKey_of_active htracks hentry reset

theorem Sound.beginReset (h : self.Sound endpoint) (htracks : Tracks self held ended) (key : Key)
    (error : UInt32) :
    ∃ next, self.beginReset endpoint key error = some next ∧ next.Sound endpoint ∧
      Tracks next held ended := by
  unfold Registry.beginReset
  split
  · exact ⟨self, rfl, h, htracks⟩
  next record hrecord =>
    obtain ⟨active, rfl, hentry⟩ := h.entry_eq_some hrecord
    exact h.reset_of_active htracks hentry error false

theorem Sound.commitReset_tracks (h : self.Sound endpoint) (htracks : Tracks self held ended) :
    ∃ next, self.commitReset = some next ∧ next.Sound endpoint ∧ Tracks next held ended := by
  obtain ⟨next, hnext, hsound, hcases⟩ := h.commitReset
  refine ⟨next, hnext, hsound, ?_⟩
  rcases hcases with rfl | ⟨key, state, owner, hentry, hslots⟩
  · exact htracks
  · refine htracks.write (owns_of_entryAt hentry) hslots ?_ (List.Subset.refl _) ?_
    · rw [known_of_entryAt hentry]
      cases owner <;> rfl
    · cases owner <;> simp [RecordState.isEnding]

theorem Sound.touch (h : self.Sound endpoint) (htracks : Tracks self held ended) {key : Key}
    {touches : List Touch} (horder : ∀ active,
      self.entryAt key.slot = some ⟨key, .active active⟩ →
      InOrder active.section (decide (key ∈ ended)) touches) :
    ∃ next, self.touch key touches = some next ∧ next.Sound endpoint ∧
      Tracks next held (noted key touches ended) := by
  unfold Registry.touch
  split
  next actual active hslot =>
    obtain ⟨hentry, rfl⟩ := slot_eq_some_iff.mp hslot
    obtain ⟨next, hnext, hsound, -, htracks'⟩ :=
      h.touch_of_active htracks hentry (horder active hentry)
    exact ⟨_, by rw [hnext]; rfl, hsound, htracks'⟩
  · exact ⟨self, rfl, h, htracks.mono (subset_noted key touches ended)⟩

theorem Sound.release_of_slot (h : self.Sound endpoint) {key : Key} {state : RecordState}
    (hentry : self.entryAt key.slot = some ⟨key, state⟩) {notice : Notice}
    {left : Option RecordState} (hleft : state.release notice = some left) :
    self.release key notice = some (self.put key.slot (left.map fun state => ⟨key, state⟩)) ∧
      (self.put key.slot (left.map fun state => ⟨key, state⟩)).Sound endpoint := by
  refine ⟨?_, h.put_same (owns_of_entryAt hentry) fun view hview => ?_⟩
  · rw [Registry.release, slot_eq_some_iff.mpr ⟨hentry, rfl⟩]
    simp only [hleft, Option.map_some]
  · rw [view_of_entryAt hentry, RecordState.view_release hleft view hview, Option.some.injEq]

theorem Sound.release (h : self.Sound endpoint) (htracks : Tracks self held ended) (key : Key)
    {notice : Notice} (hallowed : notice = .duplex → key ∈ held) :
    ∃ next, self.release key notice = some next ∧ next.Sound endpoint ∧
      Tracks next (if notice = .duplex then held.erase key else held) ended := by
  by_cases hnotice : notice = .duplex
  · -- The session that releases the stream holds it.
    subst hnotice
    obtain ⟨state, hentry, hduplex⟩ :=
      known_eq_true_iff.mp ((htracks.duplex key).mp (hallowed rfl))
    obtain ⟨left, hleft, hdone, hending⟩ := RecordState.release_duplex hduplex
    obtain ⟨hrelease, hsound⟩ := h.release_of_slot hentry hleft
    refine ⟨_, hrelease, hsound, htracks.nodup.erase key, fun other => ?_, fun other hother => ?_⟩
    · rw [if_pos rfl, htracks.nodup.mem_erase_iff, htracks.duplex,
        known_of_slots (owns_of_entryAt hentry) rfl, hdone]
      by_cases hother : other = key
      · subst hother
        simp
      · rw [Function.update_of_ne hother]
        simp [hother]
    · rw [known_of_slots (owns_of_entryAt hentry) rfl] at hother
      by_cases hne : other = key
      · subst hne
        rw [Function.update_self] at hother
        exact htracks.ended other ((known_of_entryAt hentry).trans (hending hother))
      · rw [Function.update_of_ne hne] at hother
        exact htracks.ended other hother
  · rw [if_neg hnotice]
    cases hslot : self.slot key with
    | none => exact ⟨self, by rw [Registry.release, hslot], h, htracks⟩
    | some record =>
      obtain ⟨actual, state⟩ := record
      obtain ⟨hentry, rfl⟩ := slot_eq_some_iff.mp hslot
      obtain ⟨left, hleft, hduplex, hending⟩ := state.release_of_ne hnotice
      obtain ⟨hrelease, hsound⟩ := h.release_of_slot hentry hleft
      refine ⟨_, hrelease, hsound, htracks.write (owns_of_entryAt hentry) rfl ?_
        (List.Subset.refl _) fun hend => htracks.ended actual ?_⟩
      · rw [known_of_entryAt hentry, hduplex]
      · rw [known_of_entryAt hentry, hending hend]

theorem Sound.holdDuplex (h : self.Sound endpoint) (htracks : Tracks self held ended) {key : Key}
    {active : Active} (hentry : self.entryAt key.slot = some ⟨key, .active active⟩)
    (hsection : active.section = .trailing) (hheld : key ∉ held) :
    ∃ next, self.holdDuplex key = some next ∧ next.Sound endpoint ∧
      Tracks next (key :: held) ended := by
  have howns := owns_of_entryAt hentry
  have hfree : active.peer.isDuplex = false := by
    rw [htracks.duplex, known_of_entryAt hentry, Bool.not_eq_true] at hheld
    exact hheld
  obtain ⟨next, hhold, hduplex, hend⟩ : ∃ next : Active,
      (RecordState.active active).holdDuplex = some (.active next) ∧
      next.peer.isDuplex = true ∧ next.peer.isEnded = active.peer.isEnded := by
    obtain ⟨state, peer, window⟩ := active
    cases peer with
    | initial | duplex | duplexEnd => contradiction
    | trailing | «end» => exact ⟨_, rfl, rfl, rfl⟩
  refine ⟨self.put key.slot (some ⟨key, .active next⟩), ?_, ?_, ?_⟩
  · rw [Registry.holdDuplex, slot_eq_some_iff.mpr ⟨hentry, rfl⟩]
    simp only [hhold, Option.map_some]
  · refine @Sound.put_same endpoint self h key howns (some (.active next)) fun view _ => ?_
    rw [view_of_entryAt hentry]
    rfl
  · have hknown := @known_of_slots self (self.put key.slot (some ⟨key, .active next⟩)) key howns
      (some (.active next)) rfl
    refine ⟨htracks.nodup.cons hheld, fun other => ?_, fun other hother => ?_⟩
    · rw [List.mem_cons, htracks.duplex, hknown]
      by_cases hother : other = key
      · subst hother
        rw [Function.update_self]
        exact iff_of_true (Or.inl rfl) hduplex
      · rw [Function.update_of_ne hother]
        simp [hother]
    · rw [hknown] at hother
      by_cases hne : other = key
      · subst hne
        rw [Function.update_self] at hother
        refine htracks.ended other ((known_of_entryAt hentry).trans ?_)
        exact hend.symm.trans hother
      · rw [Function.update_of_ne hne] at hother
        exact htracks.ended other hother

theorem Sound.insert_tracks (htracks : Tracks self held ended) {id : StreamId} {slot : ℕ}
    (hvacant : self.slots[slot]? = some none) (stream : Lifecycle) :
    Tracks (self.insert endpoint id slot stream) held
      (if stream.ended then ⟨id, slot⟩ :: ended else ended) := by
  have hentry : self.entryAt slot = none := by rw [entryAt, hvacant]; rfl
  have howns : self.Owns ⟨id, slot⟩ :=
    ⟨(List.getElem?_eq_some_iff.mp hvacant).1, by simp [hentry]⟩
  have hslots : (self.insert endpoint id slot stream).slots =
      (self.put slot (some ⟨⟨id, slot⟩, .active stream.active⟩)).slots := by
    unfold Registry.insert
    rw [increment_slots]
  refine @Tracks.write self _ held ended _ htracks ⟨id, slot⟩ howns (some _) hslots ?_ ?_ ?_
  · have hknown : self.known RecordState.isDuplex ⟨id, slot⟩ = false := by
      simp [known, Registry.slot, hentry]
    rw [hknown, Option.any_some, RecordState.isDuplex, Lifecycle.active]
    cases stream.ended <;> cases stream.peerSection <;> rfl
  · split
    · exact List.subset_cons_self _ ended
    · exact List.Subset.refl ended
  · rw [Option.any_some, RecordState.isEnding, Lifecycle.active]
    cases stream.ended with
    | true => simp
    | false => cases stream.peerSection <;> simp [Live.isEnded]

end Registry

/-! ## The history -/

/-- The streams that were opened on a side, the latest first. -/
def opened (endpoint : Endpoint) (peers locals : List StreamId) (id : StreamId) : List StreamId :=
  if isPeer endpoint id then peers else locals

/-- The history knows how far the ids of both sides have come. -/
structure Remembers (endpoint : Endpoint) (history : History) (peers locals : List StreamId) :
    Prop where
  /-- The peer opens streams in the order of their ids. -/
  increasing : peers.Pairwise fun later earlier => earlier.raw < later.raw
  peer : ∀ id ∈ peers, isPeer endpoint id = true
  last : ∀ n, 0 < n → (n ≤ history.lastPeer ↔ ∃ id ∈ peers, n ≤ id.raw)
  localSide : ∀ id ∈ locals, isLocal endpoint id = true
  next : ∀ next, history.nextLocal = some next → isLocal endpoint next = true ∧
    ∀ id, isLocal endpoint id = true → (id.raw < next.raw ↔ ∃ other ∈ locals, id.raw ≤ other.raw)
  exhausted : history.nextLocal = none → ∀ id, isLocal endpoint id = true →
    ∃ other ∈ locals, id.raw ≤ other.raw

section Remembers

variable {endpoint : Endpoint} {history : History} {peers locals : List StreamId}

theorem isLocal_iff (endpoint : Endpoint) (id : StreamId) : isLocal endpoint id = true ↔
    id.raw % 2 = match endpoint with
      | .server => 0
      | .client => 1 := by
  cases endpoint
  · simp [isLocal, isPeer, StreamId.isClient]
  · simp [isLocal, isPeer, StreamId.isServer]

theorem remembers_new (endpoint : Endpoint) : Remembers endpoint (.new endpoint) [] [] := by
  refine ⟨List.Pairwise.nil, nofun, ?_, nofun, ?_, ?_⟩
  · intro n hn
    have hlast : (History.new endpoint).lastPeer = 0 := by cases endpoint <;> rfl
    rw [hlast]
    simp
    omega
  · intro next hnext
    have hfirst : next.raw = match endpoint with
        | .server => 2
        | .client => 1 := by
      cases endpoint <;> (obtain rfl := Option.some.inj hnext; rfl)
    refine ⟨?_, fun id hid => ?_⟩
    · rw [isLocal_iff]
      cases endpoint <;> simp [hfirst]
    · rw [isLocal_iff] at hid
      have hpos := id.pos
      cases endpoint <;> simp at hfirst hid ⊢ <;> omega
  · intro hnone
    cases endpoint <;> exact absurd hnone (by simp [History.new])

/-- What the history says about an id: closed if it was opened or skipped, and idle otherwise. -/
theorem Remembers.classify (h : Remembers endpoint history peers locals) (id : StreamId) :
    history.classify endpoint id = .closed ↔
      ∃ other ∈ opened endpoint peers locals id, id.raw ≤ other.raw := by
  unfold History.classify opened
  by_cases hpeer : isPeer endpoint id = true
  · simp only [hpeer, if_true]
    rw [← h.last id.raw id.pos]
    by_cases hle : id.raw ≤ history.lastPeer <;> simp [hle]
  · have hside : isLocal endpoint id = true := by simpa [isLocal] using hpeer
    simp only [hpeer, Bool.false_eq_true, if_false]
    cases hnext : history.nextLocal with
    | none => simpa using h.exhausted hnext id hside
    | some next =>
      rw [← (h.next next hnext).2 id hside]
      by_cases hlt : id.raw < next.raw <;> simp [hlt]

theorem Remembers.commitPeer (h : Remembers endpoint history peers locals) {id : StreamId}
    (hpeer : history.peer endpoint id = true) :
    Remembers endpoint (history.commitPeer id) (id :: peers) locals := by
  simp only [History.peer, Bool.and_eq_true, decide_eq_true_eq] at hpeer
  have hlater : ∀ other ∈ peers, other.raw < id.raw := by
    intro other hother
    exact ((h.last other.raw other.pos).mpr ⟨other, hother, le_rfl⟩).trans_lt hpeer.2
  refine ⟨List.pairwise_cons.mpr ⟨hlater, h.increasing⟩, ?_, fun n hn => ?_, h.localSide, h.next,
    h.exhausted⟩
  · intro other hother
    rcases List.mem_cons.mp hother with rfl | hother
    · exact hpeer.1
    · exact h.peer other hother
  · constructor
    · intro hle
      exact ⟨id, List.mem_cons_self, hle⟩
    · rintro ⟨other, hother, hle⟩
      rcases List.mem_cons.mp hother with rfl | hother
      · exact hle
      · exact hle.trans (hlater other hother).le

theorem Remembers.commitLocal (h : Remembers endpoint history peers locals) {id : StreamId}
    (hnext : history.nextLocal = some id) :
    Remembers endpoint (history.commitLocal id) peers (id :: locals) := by
  obtain ⟨hside, hlocals⟩ := h.next id hnext
  -- A local id below the next but one is at most the one that was opened.
  have hparity (other : StreamId) (hother : isLocal endpoint other = true)
      (hlt : other.raw < id.raw + 2) : other.raw ≤ id.raw := by
    rw [isLocal_iff] at hside hother
    cases endpoint <;> simp at hside hother <;> omega
  refine ⟨h.increasing, h.peer, h.last, ?_, fun next hsucc => ?_, fun hsucc other hother => ?_⟩
  · intro other hother
    rcases List.mem_cons.mp hother with rfl | hother
    · exact hside
    · exact h.localSide other hother
  · simp only [History.commitLocal, StreamId.succ] at hsucc
    split at hsucc
    next hmax =>
      obtain rfl := Option.some.inj hsucc
      refine ⟨?_, fun other hother => ⟨fun hlt => ?_, ?_⟩⟩
      · rw [isLocal_iff] at hside ⊢
        simpa using hside
      · exact ⟨id, List.mem_cons_self, hparity other hother hlt⟩
      · rintro ⟨past, hpast, hle⟩
        rcases List.mem_cons.mp hpast with rfl | hpast
        · exact hle.trans_lt (by simp)
        · have := (hlocals other hother).mpr ⟨past, hpast, hle⟩
          exact this.trans (by simp)
    · contradiction
  · simp only [History.commitLocal, StreamId.succ] at hsucc
    split at hsucc
    · contradiction
    next hmax =>
      refine ⟨id, List.mem_cons_self, hparity other hother ?_⟩
      have := other.le
      omega

end Remembers

/-! ## Connections -/

namespace Machine

/-- The contract of the callers. -/
def Allowed (self : Machine) : Op → Prop
  | .admitPeer id _ edit _ _ _ | .visit id edit =>
    ∀ key active, self.registry.find id = some key →
      self.registry.entryAt key.slot = some ⟨key, .active active⟩ →
      InOrder active.section (decide (key ∈ self.ended)) edit.touches
  | .touch key touches =>
    ∀ active, self.registry.entryAt key.slot = some ⟨key, .active active⟩ →
      InOrder active.section (decide (key ∈ self.ended)) touches
  | .release key notice => notice = .duplex → key ∈ self.held
  | .holdDuplex key => key ∉ self.held ∧ ∃ active,
      self.registry.entryAt key.slot = some ⟨key, .active active⟩ ∧ active.section = .trailing
  | _ => True

/-- Every operation of a run meets the contract when it is taken. -/
def AllowedRun (endpoint : Endpoint) : Machine → List Op → Prop
  | _, [] => True
  | self, op :: ops => self.Allowed op ∧
      ∀ next, self.step endpoint op = some next → AllowedRun endpoint next ops

/-- The invariant of a connection. -/
structure Sound (endpoint : Endpoint) (machine : Machine) : Prop where
  registry : machine.registry.Sound endpoint
  tracks : Tracks machine.registry machine.held machine.ended
  remembers : Remembers endpoint machine.history machine.openedPeer machine.openedLocal

section Sound

variable {endpoint : Endpoint} {self : Machine}

theorem sound_new (capacity : ℕ) : Sound endpoint (.new endpoint capacity) :=
  ⟨Registry.sound_new capacity, tracks_new capacity, remembers_new endpoint⟩

theorem noteEnd_eq (self : Machine) (key : Key) (touches : List Touch) :
    self.noteEnd key touches = { self with ended := noted key touches self.ended } := by
  unfold noteEnd noted
  split <;> rfl

theorem Sound.edit (h : self.Sound endpoint) {key : Key} {edit : Edit}
    (hmem : key ∈ self.registry.byId)
    (hallowed : ∀ active, self.registry.entryAt key.slot = some ⟨key, .active active⟩ →
      InOrder active.section (decide (key ∈ self.ended)) edit.touches) :
    ∃ next, self.edit endpoint key edit = some next ∧ next.Sound endpoint := by
  obtain ⟨state, hentry, -⟩ := h.registry.entryAt_of_mem hmem
  have horder (active : Active) (hactive : state = .active active) :
      InOrder active.section (decide (key ∈ self.ended)) edit.touches :=
    hallowed active (hactive ▸ hentry)
  obtain ⟨registry, hregistry, hsound, htracks⟩ := h.registry.edit h.tracks hentry horder
  refine ⟨(self.withRegistry registry).noteEnd key edit.touches, ?_, ?_⟩
  · simp only [Machine.edit, hentry, hregistry, Option.map_some]
  · rw [noteEnd_eq]
    exact ⟨hsound, htracks, h.remembers⟩

theorem Sound.withRegistry (h : self.Sound endpoint) {outcome : Option Registry}
    (houtcome : ∃ next, outcome = some next ∧ next.Sound endpoint ∧
      Tracks next self.held self.ended) :
    ∃ next, outcome.map self.withRegistry = some next ∧ next.Sound endpoint := by
  obtain ⟨next, rfl, hsound, htracks⟩ := houtcome
  exact ⟨self.withRegistry next, rfl, hsound, htracks, h.remembers⟩

theorem mem_of_find {registry : Registry} {id : StreamId} {key : Key}
    (h : registry.find id = some key) : key ∈ registry.byId :=
  List.mem_of_find?_eq_some h

theorem Sound.commitPeer (h : self.Sound endpoint) {id : StreamId}
    (hpeer : self.history.peer endpoint id = true) : (self.commitPeer id).Sound endpoint :=
  ⟨h.registry, h.tracks, h.remembers.commitPeer hpeer⟩

theorem tryVacant_eq_ok {registry : Registry} {answer : Answer} {slot : ℕ}
    (h : registry.tryVacant answer = .ok slot) : registry.slots[slot]? = some none := by
  cases answer with
  | full | identityExhausted => contradiction
  | vacant other =>
    simp only [Registry.tryVacant] at h
    split at h
    next hvacant =>
      obtain rfl := Except.ok.inj h
      exact hvacant
    · contradiction

theorem Sound.insert (h : self.Sound endpoint) {id : StreamId} {slot : ℕ}
    (hvacant : self.registry.slots[slot]? = some none) (hid : self.registry.find id = none)
    (stream : Lifecycle) : (self.insert endpoint id slot stream).Sound endpoint :=
  ⟨h.registry.insert hvacant hid stream, Registry.Sound.insert_tracks h.tracks hvacant stream,
    h.remembers⟩

theorem Sound.admitPeer (h : self.Sound endpoint) {id : StreamId} {edit : Edit}
    (hallowed : ∀ key active, self.registry.find id = some key →
      self.registry.entryAt key.slot = some ⟨key, .active active⟩ →
      InOrder active.section (decide (key ∈ self.ended)) edit.touches)
    (limit : ℕ) (answer : Answer) (opening : Opening) (refuse : Bool) :
    ∃ next, self.admitPeer endpoint id limit edit answer opening refuse = some next ∧
      next.Sound endpoint := by
  unfold Machine.admitPeer
  split
  next key hkey => exact h.edit (mem_of_find hkey) fun active => hallowed key active hkey
  next hnone =>
    by_cases hidle : self.history.classify endpoint id ≠ .idle
    · exact ⟨self, by rw [if_pos hidle], h⟩
    by_cases hpeer : self.history.peer endpoint id = true
    · rw [if_neg hidle, hpeer, Bool.not_true, if_neg (by simp)]
      have hfull : (if refuse then self.commitPeer id else self).Sound endpoint := by
        split
        · exact h.commitPeer hpeer
        · exact h
      dsimp only
      split
      · exact ⟨_, rfl, hfull⟩
      split
      · exact ⟨_, rfl, hfull⟩
      split
      · exact ⟨_, rfl, hfull⟩
      · exact ⟨_, rfl, h⟩
      next slot hslot =>
        cases opening with
        | «open» stream =>
          exact ⟨_, rfl, (h.insert (tryVacant_eq_ok hslot) hnone stream).commitPeer hpeer⟩
        | refuse => exact ⟨_, rfl, h.commitPeer hpeer⟩
        | leave => exact ⟨_, rfl, h⟩
    · exact ⟨self, by rw [if_neg hidle, if_pos (by simpa using hpeer)], h⟩

theorem Sound.openLocal (h : self.Sound endpoint) (limit : ℕ) (answer : Answer)
    (stream : Lifecycle) (encoded : Bool) :
    ∃ next, self.openLocal endpoint limit answer stream encoded = some next ∧
      next.Sound endpoint := by
  unfold Machine.openLocal
  split
  · exact ⟨self, rfl, h⟩
  next id hid =>
    split
    · exact ⟨self, rfl, h⟩
    split
    · exact ⟨self, rfl, h⟩
    next hfind =>
      split
      · exact ⟨self, rfl, h⟩
      split
      · exact ⟨self, rfl, h⟩
      next slot hslot =>
        have hinsert := h.insert (tryVacant_eq_ok hslot)
          (Option.not_isSome_iff_eq_none.mp hfind) stream
        dsimp only
        split
        · exact ⟨_, rfl, hinsert.registry, hinsert.tracks, hinsert.remembers.commitLocal hid⟩
        · exact hinsert.withRegistry (hinsert.registry.removeKey hinsert.tracks ⟨id, slot⟩ false)

/-- Every operation keeps the invariant, and reaches no unreachable branch. -/
theorem Sound.step (h : self.Sound endpoint) {op : Op} (hallowed : self.Allowed op) :
    ∃ next, self.step endpoint op = some next ∧ next.Sound endpoint := by
  cases op with
  | admitPeer id limit edit answer opening refuse =>
    exact h.admitPeer hallowed limit answer opening refuse
  | openLocal limit answer stream encoded => exact h.openLocal limit answer stream encoded
  | visit id edit =>
    unfold Machine.step
    dsimp only
    split
    · exact ⟨self, rfl, h⟩
    next key hkey => exact h.edit (mem_of_find hkey) fun active => hallowed key active hkey
  | removeKey key reset => exact h.withRegistry (h.registry.removeKey h.tracks key reset)
  | beginReset key error => exact h.withRegistry (h.registry.beginReset h.tracks key error)
  | commitReset => exact h.withRegistry (h.registry.commitReset_tracks h.tracks)
  | release key notice =>
    obtain ⟨next, hnext, hsound, htracks⟩ := h.registry.release h.tracks key hallowed
    simp only [Machine.step, hnext, Option.map_some]
    exact ⟨_, rfl, hsound, htracks, h.remembers⟩
  | holdDuplex key =>
    obtain ⟨hheld, active, hentry, hsection⟩ := hallowed
    obtain ⟨next, hnext, hsound, htracks⟩ :=
      h.registry.holdDuplex h.tracks hentry hsection hheld
    simp only [Machine.step, hnext, Option.map_some]
    exact ⟨_, rfl, hsound, htracks, h.remembers⟩
  | touch key touches =>
    obtain ⟨next, hnext, hsound, htracks⟩ := h.registry.touch h.tracks hallowed
    simp only [Machine.step, hnext, Option.map_some]
    refine ⟨_, rfl, ?_⟩
    rw [noteEnd_eq]
    exact ⟨hsound, htracks, h.remembers⟩
  | addSend id delta =>
    exact ⟨_, rfl, h.registry.addSend id delta, h.tracks.addSend h.registry id delta, h.remembers⟩
  | adjustSend delta =>
    refine ⟨_, rfl, h.registry.adjustSend delta, ?_, h.remembers⟩
    simp only [Registry.adjustSend]
    split
    · exact h.tracks
    · exact h.tracks.adjustFrom h.registry delta 0 _
  | pollWake => exact ⟨_, rfl, h.registry.pollWake, h.tracks.congr rfl, h.remembers⟩

theorem Sound.run (h : self.Sound endpoint) {ops : List Op}
    (hallowed : self.AllowedRun endpoint ops) :
    ∃ last, self.run endpoint ops = some last ∧ last.Sound endpoint := by
  induction ops generalizing self with
  | nil => exact ⟨self, rfl, h⟩
  | cons op ops ih =>
    obtain ⟨hop, hrest⟩ := hallowed
    obtain ⟨next, hnext, hsound⟩ := h.step hop
    obtain ⟨last, hlast, hdone⟩ := ih hsound (hrest next hnext)
    refine ⟨last, ?_, hdone⟩
    rw [Machine.run, List.foldlM_cons, hnext]
    exact hlast

end Sound

theorem allowedRun_cons {endpoint : Endpoint} {self next : Machine} {op : Op} {ops : List Op}
    (hop : self.Allowed op) (hstep : self.step endpoint op = some next)
    (hrest : AllowedRun endpoint next ops) : AllowedRun endpoint self (op :: ops) := by
  refine ⟨hop, fun other hother => ?_⟩
  obtain rfl := Option.some.inj (hstep.symm.trans hother)
  exact hrest

end Machine

end Sark.H2
