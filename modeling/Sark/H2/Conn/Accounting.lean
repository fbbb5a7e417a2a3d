import Sark.H2.Conn.Message
import Sark.Library.Interleaving

/-!
# Content accounting over whole messages

A message is a list of frames; between them this end may send, open a duplex session or give back
what it holds, and none of it touches the accounting. Every phase of the receive side is a
predicate on the stream that local actions keep, and every frame of the message takes one phase to
the next or ends the stream with an error.

* `Message.Keeps`: what a message must be to be let through.
* `Stream.Fresh`, `Stream.InBody`, `Stream.Completed`, `Stream.Dead`: the phases.
* `Stream.message_accounted`: a message is completed exactly when it keeps to what its head
  declares, no run delivers more than was declared, and interim responses leave the accounting
  as it was.
-/

namespace Sark.H2

open Metadata (Content ContentError Framing Method Response Fits)

/-! ## Active records -/

namespace Active

/-- The head of the message has not come. -/
def Waits (self : Active) : Prop :=
  self.peer = .initial ∧
    (self.state = .idle ∨ self.state = .open ∨ self.state = .halfClosedLocal ∨
      self.state = .reservedRemote)

/-- The head of the message has come, and its end has not. -/
def Receives (self : Active) : Prop :=
  (self.peer = .trailing ∨ self.peer = .duplex) ∧
    (self.state = .open ∨ self.state = .halfClosedLocal)

theorem Waits.section_eq {self : Active} (h : self.Waits) : self.section = .initial := by
  simp only [Active.section, h.1]

theorem Receives.section_eq {self : Active} (h : self.Receives) : self.section = .trailing := by
  rcases h.1 with hpeer | hpeer <;> simp only [Active.section, hpeer]

theorem Waits.act {self : Active} (h : self.Waits) (act : Local) : (act.apply self).Waits := by
  obtain ⟨state, peer, window⟩ := self
  obtain ⟨rfl, hstate⟩ := h
  cases act with
  | headers boundary =>
    rcases hstate with rfl | rfl | rfl | rfl <;> cases boundary <;>
      simp [Local.apply, StreamState.send, StreamState.directional, StreamEvent.boundary,
        StreamState.applySending, Except.map, Waits]
  | data boundary =>
    rcases hstate with rfl | rfl | rfl | rfl <;> cases boundary <;>
      simp [Local.apply, StreamState.send, StreamState.directional, StreamEvent.boundary,
        Except.map, Waits]
  | holdDuplex => exact ⟨rfl, hstate⟩
  | release notice => cases notice <;> exact ⟨rfl, hstate⟩

theorem Receives.act {self : Active} (h : self.Receives) (act : Local) :
    (act.apply self).Receives := by
  obtain ⟨state, peer, window⟩ := self
  obtain ⟨hpeer, hstate⟩ := h
  cases act with
  | headers boundary =>
    rcases hstate with rfl | rfl <;> cases boundary <;>
      simpa [Local.apply, StreamState.send, StreamState.directional, StreamEvent.boundary,
        StreamState.applySending, Except.map, Receives] using hpeer
  | data boundary =>
    rcases hstate with rfl | rfl <;> cases boundary <;>
      simpa [Local.apply, StreamState.send, StreamState.directional, StreamEvent.boundary,
        Except.map, Receives] using hpeer
  | holdDuplex =>
    rcases hpeer with rfl | rfl <;> exact ⟨.inr rfl, hstate⟩
  | release notice =>
    rcases hpeer with rfl | rfl <;> cases notice <;>
      first | exact ⟨.inl rfl, hstate⟩ | exact ⟨.inr rfl, hstate⟩

end Active

/-! ## Dispositions -/

/-- The stream is kept, and its record meets `P`. -/
def Goes (P : Inbound → Prop) (result : Except ConnError Disposition) : Prop :=
  ∃ record, result = .ok (.keep record) ∧ P record

/-- The message has ended. -/
def Ends (result : Except ConnError Disposition) : Prop :=
  result = .ok .remove ∨ Goes (fun record => record.state = .halfClosedRemote) result

/-- The stream or its connection ends with an error. -/
def Fails (result : Except ConnError Disposition) : Prop :=
  (∃ error, result = .ok (.reset error)) ∨ ∃ error, result = .error error

/-- The message of a record that has received `received` bytes of a body whose head declares
`declared`, and that no trailers may end if `bare`. -/
structure Inbound.InBody (declared : Option ℕ) (bare : Prop) (received : ℕ) (record : Inbound) :
    Prop where
  receives : record.Receives
  tracks : Metadata.Tracks declared received record.content record.remaining
  bare_iff : (record.content = .empty ∨ record.content = .tunnel) ↔ bare

namespace Inbound

theorem completeHead_of_initial {self : Inbound} (h : self.peer = .initial) :
    self.completeHead = { self with peer := .trailing } := by
  simp [completeHead, Active.touch, h]

theorem completeHead_of_receives {self : Inbound} (h : self.peer = .trailing ∨ self.peer = .duplex) :
    self.completeHead = self := by
  rcases h with h | h <;> simp [completeHead, Active.touch, h]

theorem queueEnd_eq {self : Inbound} (h : self.peer = .trailing ∨ self.peer = .duplex)
    (queued : Bool) (boundary : Boundary) :
    ∃ peer, self.queueEnd queued boundary = .ok { self with peer } ∧
      (boundary = .more → peer = self.peer) := by
  unfold queueEnd
  split
  · next hend =>
    rcases h with h | h <;> simp only [Active.touch, h]
    · exact ⟨.end, rfl, by simp [hend.2]⟩
    · exact ⟨.duplexEnd, rfl, by simp [hend.2]⟩
  · exact ⟨self.peer, rfl, fun _ => rfl⟩

theorem commit_more {self : Inbound} (h : self.Receives) (queued : Bool) :
    self.commit .more queued = .ok (.keep self) := by
  obtain ⟨peer, hqueue, hpeer⟩ := queueEnd_eq h.1 queued .more
  have hopen : self.state ≠ .closed := by rcases h.2 with h | h <;> simp [h]
  simp [commit, hqueue, hpeer rfl, if_neg hopen]

theorem commit_end (self : Inbound) (hpeer : self.peer = .trailing ∨ self.peer = .duplex)
    (hstate : self.state = .halfClosedRemote ∨ self.state = .closed) (queued : Bool) :
    Ends (self.commit .end queued) := by
  obtain ⟨peer, hqueue, -⟩ := queueEnd_eq hpeer queued .end
  rcases hstate with hstate | hstate
  · exact .inr ⟨{ self with peer }, by simp [commit, hqueue, hstate], hstate⟩
  · exact .inl (by simp [commit, hqueue, hstate])

/-! ## Header sections -/

variable {endpoint : Endpoint} {self : Inbound} {final : Final} {framing : Framing}
  {declared : Option ℕ} {bare : Prop} {received : ℕ}

theorem complete_of_rejected (h : final.isRejected = true) (boundary : Boundary) (part : Section)
    (queued : Bool) : Fails (self.complete endpoint final boundary part queued) := by
  exact .inl ⟨.protocolError, by simp [complete, h]⟩

/-- An interim response leaves the accounting as it was, and the head still awaited. -/
theorem complete_interim (endpoint : Endpoint) (hwaits : self.Waits) (hrejected : final.isRejected = false)
    (hinterim : final.isInterim = true) (queued : Bool) :
    Goes (fun record => record.Waits ∧ record.content = self.content ∧
        record.remaining = self.remaining ∧ (endpoint = .client → record.method = self.method))
      (self.complete endpoint final .more .initial queued) := by
  obtain ⟨next, hrecv, hnext, -⟩ := StreamState.recv_headers hwaits.2 .more
  have hopen : next ≠ .closed := by rcases hnext rfl with rfl | rfl <;> simp
  refine ⟨⟨⟨next, self.peer, self.sendWindow⟩,
    if endpoint = .server then final.method else self.method, self.content, self.remaining⟩,
    ?_, ⟨hwaits.1, ?_⟩, rfl, rfl, ?_⟩
  · simp [complete, hrejected, hinterim, hrecv, account, commit, queueEnd, hopen]
  · rcases hnext rfl with h | h
    · exact .inr (.inl h)
    · exact .inr (.inr (.inl h))
  · rintro rfl
    rfl

theorem isRejected_of_framing (h : final.framing? = some framing) : final.isRejected = false := by
  cases final <;> simp_all [Final.framing?, Final.isRejected]

theorem account_head (boundary : Boundary) (hframing : final.framing? = some framing)
    (hinterim : final.isInterim = false)
    (hclear : ¬ framing.Contradicts (self.method.getD .other))
    (hfits : Fits (framing.declared (self.method.getD .other)) 0 (boundary == .end)) :
    ∃ next, self.account final boundary .initial =
        .ok ((framing.opening (self.method.getD .other)).1, next) ∧
      Metadata.Tracks (framing.declared (self.method.getD .other)) 0
        (framing.opening (self.method.getD .other)).1 next := by
  have hcontent := Framing.content_eq_ok_iff.mpr ⟨hclear, rfl⟩
  have htracks := framing.tracks_opening (self.method.getD .other)
  obtain ⟨next, hnext⟩ := (htracks.receive_iff 0 (boundary == .end)).mpr hfits
  exact ⟨next, by simp [account, hinterim, Final.content, hframing, hcontent, Except.mapError,
    hnext], htracks.receive hnext⟩

theorem account_head_error (hframing : final.framing? = some framing)
    (hinterim : final.isInterim = false) {boundary : Boundary}
    (h : framing.Contradicts (self.method.getD .other) ∨
      ¬ Fits (framing.declared (self.method.getD .other)) 0 (boundary == .end)) :
    ∃ error, self.account final boundary .initial = .error error := by
  simp only [account, hinterim, Bool.false_eq_true, ↓reduceIte, Final.content, hframing]
  cases hcontent : framing.content (self.method.getD .other) with
  | error error => exact ⟨.ofContent error, rfl⟩
  | ok opened =>
    obtain ⟨hclear, rfl⟩ := Framing.content_eq_ok_iff.mp hcontent
    have hreceive := mt ((framing.tracks_opening _).receive_iff 0 (boundary == .end)).mp
      (h.resolve_left hclear)
    simp only [Except.mapError]
    cases hnext : (framing.opening (self.method.getD .other)).1.receive
        (framing.opening (self.method.getD .other)).2 0 (boundary == .end) with
    | error error => exact ⟨.ofContent error, rfl⟩
    | ok next => exact absurd ⟨next, hnext⟩ hreceive

theorem complete_of_account {boundary : Boundary} {part : Section} {next : StreamState}
    {account : Content × ℕ} (hrejected : final.isRejected = false)
    (hinterim : final.isInterim = false) (hrecv : self.state.recv (.headers boundary) = .ok next)
    (haccount : self.account final boundary part = .ok account) (queued : Bool) :
    ∃ record : Inbound,
      self.complete endpoint final boundary part queued =
        record.completeHead.commit boundary queued ∧
      record.state = next ∧ record.peer = self.peer ∧ record.content = account.1 ∧
        record.remaining = account.2 := by
  refine ⟨⟨⟨next, self.peer, self.sendWindow⟩,
    if endpoint = .server ∧ part = .initial then final.method else self.method,
    account.1, account.2⟩, ?_, rfl, rfl, rfl, rfl⟩
  simp only [complete, hrejected, hinterim, Bool.false_eq_true, false_and, or_self, ↓reduceIte,
    hrecv, haccount]

theorem complete_of_account_error {boundary : Boundary} {part : Section} {next : StreamState}
    {error : ErrorCode} (hrejected : final.isRejected = false)
    (hinterim : final.isInterim = false) (hrecv : self.state.recv (.headers boundary) = .ok next)
    (haccount : self.account final boundary part = .error error) (queued : Bool) :
    Fails (self.complete endpoint final boundary part queued) := by
  refine .inl ⟨error, ?_⟩
  simp only [complete, hrejected, hinterim, Bool.false_eq_true, false_and, or_self, ↓reduceIte,
    hrecv, haccount]

section Head

variable (hwaits : self.Waits) (hframing : final.framing? = some framing)
  (hinterim : final.isInterim = false)

include hwaits hframing hinterim

theorem complete_head_more (endpoint : Endpoint)
    (hclear : ¬ framing.Contradicts (self.method.getD .other))
    (queued : Bool) :
    Goes (InBody (framing.declared (self.method.getD .other))
        (framing.IsBare (self.method.getD .other) ∨ framing.IsTunnel (self.method.getD .other)) 0)
      (self.complete endpoint final .more .initial queued) := by
  obtain ⟨next, hrecv, hnext, -⟩ := StreamState.recv_headers hwaits.2 .more
  obtain ⟨remaining, haccount, htracks⟩ := account_head .more
    hframing hinterim hclear fun _ _ => ⟨Nat.zero_le _, by simp⟩
  obtain ⟨record, hcomplete, rfl, hpeer, hcontent, rfl⟩ := complete_of_account
     (isRejected_of_framing hframing) hinterim hrecv haccount queued
  rw [hcomplete, completeHead_of_initial (hpeer.trans hwaits.1)]
  have hreceives : Active.Receives ⟨record.state, .trailing, record.sendWindow⟩ :=
    ⟨.inl rfl, hnext rfl⟩
  refine ⟨_, commit_more hreceives queued, hreceives, ?_, ?_⟩
  · rwa [← hcontent] at htracks
  · rw [← framing.opening_noTrailers_iff, ← hcontent]

theorem complete_head_end (endpoint : Endpoint)
    (hclear : ¬ framing.Contradicts (self.method.getD .other))
    (hfits : Fits (framing.declared (self.method.getD .other)) 0 true) (queued : Bool) :
    Ends (self.complete endpoint final .end .initial queued) := by
  obtain ⟨next, hrecv, -, hnext⟩ := StreamState.recv_headers hwaits.2 .end
  obtain ⟨remaining, haccount, -⟩ := account_head .end
    hframing hinterim hclear hfits
  obtain ⟨record, hcomplete, rfl, hpeer, -⟩ := complete_of_account
    (isRejected_of_framing hframing) hinterim hrecv haccount queued
  rw [hcomplete, completeHead_of_initial (hpeer.trans hwaits.1)]
  exact commit_end { record with peer := .trailing } (.inl rfl) (hnext rfl) queued

/-- The head that contradicts itself, or ends a message that is still to have content. -/
theorem complete_head_fails {boundary : Boundary}
    (h : framing.Contradicts (self.method.getD .other) ∨
      ¬ Fits (framing.declared (self.method.getD .other)) 0 (boundary == .end)) (queued : Bool) :
    Fails (self.complete endpoint final boundary .initial queued) := by
  obtain ⟨next, hrecv, -, -⟩ := StreamState.recv_headers hwaits.2 boundary
  obtain ⟨error, haccount⟩ := account_head_error hframing hinterim h
  exact complete_of_account_error (isRejected_of_framing hframing) hinterim hrecv haccount queued

end Head

theorem complete_trailers (endpoint : Endpoint) (h : self.InBody declared bare received)
    (hrejected : final.isRejected = false) (hinterim : final.isInterim = false)
    (hfits : Fits declared received true) (hbare : ¬ bare) (queued : Bool) :
    Ends (self.complete endpoint final .end .trailing queued) := by
  obtain ⟨next, hrecv, -, hnext⟩ := StreamState.recv_headers
    (h.receives.2.elim (fun h => .inr (.inl h)) fun h => .inr (.inr (.inl h))) .end
  have htrailers := h.tracks.trailers_iff.mpr ⟨hfits, not_or.mp (mt h.bare_iff.mp hbare)⟩
  have haccount : self.account final .end .trailing = .ok (self.content, self.remaining) := by
    simp only [account, htrailers]
  obtain ⟨record, hcomplete, rfl, hpeer, -⟩ := complete_of_account
    hrejected hinterim hrecv haccount queued
  replace hpeer : record.peer = .trailing ∨ record.peer = .duplex := hpeer ▸ h.receives.1
  rw [hcomplete, completeHead_of_receives hpeer]
  exact commit_end _ hpeer (hnext rfl) queued

theorem complete_trailers_fails (h : self.InBody declared bare received)
    (hrejected : final.isRejected = false) (hinterim : final.isInterim = false)
    (hnot : ¬ Fits declared received true ∨ bare) (queued : Bool) :
    Fails (self.complete endpoint final .end .trailing queued) := by
  obtain ⟨next, hrecv, -, -⟩ := StreamState.recv_headers
    (h.receives.2.elim (fun h => .inr (.inl h)) fun h => .inr (.inr (.inl h))) .end
  cases htrailers : self.content.trailers self.remaining with
  | ok =>
    obtain ⟨hfits, hcontent⟩ := h.tracks.trailers_iff.mp htrailers
    exact (hnot.elim (fun hnot => hnot hfits)
      fun hbare => (h.bare_iff.mpr hbare).elim hcontent.1 hcontent.2).elim
  | error error =>
    have haccount : self.account final .end .trailing = .error (.ofContent error) := by
      simp [account, htrailers]
    exact complete_of_account_error hrejected hinterim hrecv haccount queued

/-! ## DATA frames -/

theorem apply_eq (h : self.InBody declared bare received) {boundary : Boundary}
    {next : StreamState} (hrecv : self.state.recv (.data boundary) = .ok next) {len remaining : ℕ}
    (hreceive : self.content.receive self.remaining len (boundary == .end) = .ok remaining)
    (queued : Bool) :
    self.apply len boundary .admitted queued =
      (Inbound.mk ⟨next, self.peer, self.sendWindow⟩ self.method self.content
        remaining).commit boundary queued := by
  simp [apply, hrecv, h.receives.section_eq, hreceive, commit]

theorem apply_more (h : self.InBody declared bare received) {len : ℕ}
    (hfits : Fits declared (received + len) false) (queued : Bool) :
    Goes (InBody declared bare (received + len)) (self.apply len .more .admitted queued) := by
  obtain ⟨next, hrecv, hnext, -⟩ := StreamState.recv_data h.receives.2 .more
  obtain ⟨remaining, hreceive⟩ := (h.tracks.receive_iff len false).mpr hfits
  rw [apply_eq h hrecv hreceive]
  have hreceives : Active.Receives ⟨next, self.peer, self.sendWindow⟩ :=
    ⟨h.receives.1, hnext rfl⟩
  exact ⟨_, commit_more hreceives queued, hreceives, h.tracks.receive hreceive, h.bare_iff⟩

theorem apply_end (h : self.InBody declared bare received) {len : ℕ}
    (hfits : Fits declared (received + len) true) (queued : Bool) :
    Ends (self.apply len .end .admitted queued) := by
  obtain ⟨next, hrecv, -, hnext⟩ := StreamState.recv_data h.receives.2 .end
  obtain ⟨remaining, hreceive⟩ := (h.tracks.receive_iff len true).mpr hfits
  rw [apply_eq h hrecv hreceive]
  exact commit_end ⟨⟨next, _, _⟩, _, _, _⟩ h.receives.1 (hnext rfl) queued

theorem apply_fails (h : self.InBody declared bare received) {len : ℕ} {boundary : Boundary}
    {receive : Receive}
    (hnot : ¬ Fits declared (received + len) (boundary == .end) ∨ receive ≠ .admitted)
    (queued : Bool) : Fails (self.apply len boundary receive queued) := by
  obtain ⟨next, hrecv, -, -⟩ := StreamState.recv_data h.receives.2 boundary
  have hsection : self.section ≠ .initial := by simp [h.receives.section_eq]
  simp only [apply, hrecv, if_neg hsection]
  cases hreceive : self.content.receive self.remaining len (boundary == .end) with
  | error error => exact .inl ⟨_, rfl⟩
  | ok remaining =>
    have hfits := (h.tracks.receive_iff len (boundary == .end)).mp ⟨remaining, hreceive⟩
    cases receive with
    | admitted => exact (hnot.elim (fun hnot => hnot hfits) fun hne => hne rfl).elim
    | stalledStream => exact .inl ⟨_, rfl⟩
    | stalledConnection => exact .inr ⟨_, rfl⟩

end Inbound

/-! ## Phases of a stream -/

/-- The bytes of content that an event delivers. -/
def Notification.len : Notification → ℕ
  | .headers _ _ _ => 0
  | .data len _ => len

namespace Stream

/-- The bytes of content delivered so far. -/
def delivered (self : Stream) : ℕ :=
  (self.events.map Notification.len).sum

/-- No more has been delivered than was declared. -/
def Within (declared : Option ℕ) (self : Stream) : Prop :=
  ∀ length, declared = some length → self.delivered ≤ length

/-- The stream is live with a record in `P`, and `received` bytes have been delivered. -/
def At (pending : Option Pending) (P : Inbound → Prop) (received : ℕ) (self : Stream) : Prop :=
  self.pending = pending ∧ self.delivered = received ∧
    ∃ record, self.status = .live record ∧ P record

/-- The stream has not been opened. -/
def Unopened (self : Stream) : Prop :=
  self.pending = none ∧ self.delivered = 0 ∧ self.status = .idle

/-- The message has ended as it should. -/
def Completed (self : Stream) : Prop :=
  self.pending = none ∧ (self.status = .closed ∨
    ∃ record, self.status = .live record ∧ record.state = .halfClosedRemote)

/-- The message has ended with an error of its stream or its connection. -/
def Dead (self : Stream) : Prop :=
  (∃ error, self.status = .reset error) ∨ ∃ error, self.status = .failed error

theorem Completed.not_dead {self : Stream} (h : self.Completed) : ¬ self.Dead := by
  rintro (⟨error, hdead⟩ | ⟨error, hdead⟩) <;>
    rcases h.2 with hstatus | ⟨record, hstatus, -⟩ <;> simp [hdead] at hstatus

/-- What local actions keep of a record. -/
def Kept (P : Inbound → Prop) : Prop :=
  ∀ (record : Inbound) (act : Local), P record →
    (act.apply record.toActive).state ≠ .closed ∧
      P { record with toActive := act.apply record.toActive }

theorem kept_waits (method : Method) :
    Kept fun record => record.Waits ∧ record.method.getD .other = method := by
  rintro record act ⟨hwaits, hmethod⟩
  have hact := hwaits.act act
  refine ⟨?_, hact, hmethod⟩
  rcases hact.2 with h | h | h | h <;> simp [h]

theorem kept_inBody (declared : Option ℕ) (bare : Prop) (received : ℕ) :
    Kept (Inbound.InBody declared bare received) := by
  intro record act h
  have hact := h.receives.act act
  refine ⟨?_, hact, h.tracks, h.bare_iff⟩
  rcases hact.2 with h | h <;> simp [h]

section Phases

variable {endpoint : Endpoint} {window : Window} {declared : Option ℕ} {P : Inbound → Prop}
  {received : ℕ}

theorem isFrame_eq_false {event : Step} (h : event.isFrame = false) : ∃ act, event = .act act := by
  cases event <;> simp_all [Step.isFrame]

theorem stable_at (hkept : Kept P) (pending : Option Pending) :
    Stable (step endpoint window) Step.isFrame (At pending P received) := by
  rintro self event hevent ⟨hpending, hdelivered, record, hstatus, hP⟩
  obtain ⟨act, rfl⟩ := isFrame_eq_false hevent
  obtain ⟨hopen, hP⟩ := hkept record act hP
  have hstep : self.step endpoint window (.act act) =
      { self with status := .live { record with toActive := act.apply record.toActive } } := by
    simp only [step, Stream.act, hstatus, if_neg hopen]
  rw [hstep]
  exact ⟨hpending, hdelivered, _, rfl, hP⟩

theorem stable_unopened : Stable (step endpoint window) Step.isFrame Unopened := by
  rintro self event hevent ⟨hpending, hdelivered, hstatus⟩
  obtain ⟨act, rfl⟩ := isFrame_eq_false hevent
  have hstep : self.step endpoint window (.act act) = self := by
    simp only [step, Stream.act, hstatus]
  rw [hstep]
  exact ⟨hpending, hdelivered, hstatus⟩

theorem stable_completed :
    Stable (step endpoint window) Step.isFrame fun s => s.Completed ∧ s.delivered = received := by
  rintro self event hevent ⟨⟨hpending, hstatus⟩, hdelivered⟩
  obtain ⟨act, rfl⟩ := isFrame_eq_false hevent
  simp only [step, Stream.act]
  rcases hstatus with hstatus | ⟨record, hstatus, hended⟩
  · simp only [hstatus]
    exact ⟨⟨hpending, .inl hstatus⟩, hdelivered⟩
  · simp only [hstatus]
    split
    · exact ⟨⟨hpending, .inl rfl⟩, hdelivered⟩
    · next hopen =>
      exact ⟨⟨hpending, .inr ⟨_, rfl, (Active.act_ended hended act).resolve_right hopen⟩⟩,
        hdelivered⟩

theorem dead_step {self : Stream} (event : Step) (h : self.Dead) :
    (self.step endpoint window event).Dead ∧
      (self.step endpoint window event).events = self.events := by
  have hfail : ∀ error, (self.fail error).Dead := fun error => .inr ⟨error, rfl⟩
  rcases h with ⟨error, hstatus⟩ | ⟨error, hstatus⟩
  all_goals
    have hdead : self.Dead := by simp [Dead, hstatus]
    cases event with
    | headers final boundary queued =>
      simp only [step]
      cases self.pending with
      | none => simpa only [headers, hstatus, and_true] using hdead
      | some pending => exact ⟨hfail _, rfl⟩
    | chain boundary =>
      simp only [step]
      cases self.pending with
      | none => simp [chain, hstatus, Dead]
      | some pending => exact ⟨hfail _, rfl⟩
    | finish final queued =>
      simp only [step]
      cases self.pending with
      | none => exact ⟨hfail _, rfl⟩
      | some pending => simp [finish, hstatus, Dead]
    | data payload boundary receive queued =>
      simp only [step]
      cases self.pending with
      | none =>
        simp only [data]
        cases payload.unpadded with
        | error error => exact ⟨hfail _, rfl⟩
        | ok len => simpa only [hstatus, and_true] using hdead
      | some pending => exact ⟨hfail _, rfl⟩
    | act act => simpa only [step, Stream.act, hstatus, and_true] using hdead

theorem leads_dead (frames : List Step) :
    Leads (step endpoint window) Step.isFrame (Within declared)
      (fun s => s.Dead ∧ s.Within declared) frames (fun s => s.Dead ∧ s.Within declared) := by
  refine Leads.always ?_ (fun _ h => h.2) frames
  rintro self event ⟨hdead, hwithin⟩
  obtain ⟨hdead, hevents⟩ := dead_step event hdead
  exact ⟨hdead, by simpa only [Within, delivered, hevents] using hwithin⟩

/-! ## Frames -/

theorem settle_goes {Q : Inbound → Prop} (self : Stream)
    {result : Except ConnError Disposition} (h : Goes Q result) (events : List Notification) :
    At none Q (self.delivered + (events.map Notification.len).sum) (self.settle result events) := by
  obtain ⟨record, rfl, hQ⟩ := h
  exact ⟨rfl, by simp [settle, delivered], record, rfl, hQ⟩

theorem settle_ends (self : Stream) {result : Except ConnError Disposition} (h : Ends result)
    (events : List Notification) :
    (self.settle result events).Completed ∧ (self.settle result events).delivered =
      self.delivered + (events.map Notification.len).sum := by
  rcases h with rfl | ⟨record, rfl, hended⟩
  · exact ⟨⟨rfl, .inl rfl⟩, by simp [settle, delivered]⟩
  · exact ⟨⟨rfl, .inr ⟨record, rfl, hended⟩⟩, by simp [settle, delivered]⟩

theorem settle_fails (self : Stream) {result : Except ConnError Disposition} (h : Fails result)
    (events : List Notification) :
    (self.settle result events).Dead ∧ (self.settle result events).delivered = self.delivered := by
  rcases h with ⟨error, rfl⟩ | ⟨error, rfl⟩
  · exact ⟨.inl ⟨error, rfl⟩, rfl⟩
  · exact ⟨.inr ⟨error, rfl⟩, rfl⟩

end Phases

end Stream

/-- A header section of a message: in one frame, or in a chain. -/
structure Block where
  final : Final
  chained : Bool
  queued : Bool
  deriving DecidableEq, Repr

/-- The frames of a section that carry the stream's part. -/
def Block.steps (self : Block) (boundary : Boundary) : List Step :=
  if self.chained then [.chain boundary, .finish self.final self.queued]
  else [.headers self.final boundary self.queued]

/-- A DATA frame of a message, with what the windows say about it. -/
structure DataFrame where
  payload : Payload
  receive : Receive
  queued : Bool
  deriving DecidableEq, Repr

namespace DataFrame

def step (self : DataFrame) (boundary : Boundary) : Step :=
  .data self.payload boundary self.receive self.queued

/-- The number of bytes of content, padding excluded. -/
def len (self : DataFrame) : ℕ :=
  match self.payload.unpadded with
  | .ok len => len
  | .error _ => 0

/-- The padding fits the frame, and the windows hold it. -/
def IsAdmitted (self : DataFrame) : Prop :=
  self.payload.unpadded.toOption.isSome ∧ self.receive = .admitted

end DataFrame

namespace Stream

section Frames

variable {endpoint : Endpoint} {window : Window} {declared : Option ℕ} {P : Inbound → Prop}
  {received : ℕ} {Q : Stream → Prop} {block : Block} {boundary : Boundary}

theorem within_at {pending : Option Pending} {self : Stream}
    (hle : ∀ record, P record → ∀ length, declared = some length → received ≤ length)
    (h : At pending P received self) : self.Within declared := by
  obtain ⟨-, rfl, record, -, hP⟩ := h
  exact hle record hP

/-- A section leads to what it makes of the record, in one frame as in a chain. -/
theorem leads_block (part : Section) (hkept : Kept P)
    (hpart : ∀ record, P record → record.section = part)
    (hallowed : ¬ (part = .trailing ∧ boundary = .more))
    (hle : ∀ record, P record → ∀ length, declared = some length → received ≤ length)
    (hQ : Stable (step endpoint window) Step.isFrame Q) (hQI : ∀ s, Q s → s.Within declared)
    (hsettle : ∀ (s : Stream) (record : Inbound), s.delivered = received → P record →
      Q (s.settle (record.complete endpoint block.final boundary part block.queued)
        [.headers block.final boundary part])) :
    Leads (step endpoint window) Step.isFrame (Within declared) (At none P received)
      (block.steps boundary) Q := by
  unfold Block.steps
  split
  · -- Between the two frames the stream waits, with its record as it was.
    have hpending : Stable (step endpoint window) Step.isFrame
        (At (some ⟨boundary, part, none⟩) P received) := stable_at hkept _
    have hchain : Leads (step endpoint window) Step.isFrame (Within declared)
        (At none P received) [.chain boundary] (At (some ⟨boundary, part, none⟩) P received) := by
      refine Leads.one (stable_at hkept none) hpending (fun _ => within_at hle)
        (fun _ => within_at hle) ?_
      rintro self ⟨hnone, hdelivered, record, hstatus, hP⟩
      simp only [step, hnone, chain, hstatus, hpart record hP, if_neg hallowed]
      exact ⟨rfl, hdelivered, record, rfl, hP⟩
    refine hchain.append (Leads.one hpending hQ (fun _ => within_at hle) hQI ?_)
    rintro self ⟨hsome, hdelivered, record, hstatus, hP⟩
    simp only [step, hsome, finish, hstatus]
    exact hsettle self record hdelivered hP
  · refine Leads.one (stable_at hkept none) hQ (fun _ => within_at hle) hQI ?_
    rintro self ⟨hnone, hdelivered, record, hstatus, hP⟩
    simp only [step, hnone, headers, hstatus, hpart record hP, if_neg hallowed]
    exact hsettle self record hdelivered hP

/-- A stream that its first section opens in one frame is the stream that a chain opens. -/
theorem headers_unopened {self : Stream} (h : self.Unopened) {final : Final}
    (hinterim : final.isInterim = false ∨ final.isRejected = true) (boundary : Boundary)
    (queued : Bool) :
    self.headers .server window final boundary queued =
      self.settle ((Inbound.new window).complete .server final boundary .initial queued)
        [.headers final boundary .initial] := by
  obtain ⟨hpending, -, hstatus⟩ := h
  simp only [headers, hstatus, Inbound.openRemote]
  by_cases hrejected : final.isRejected = true
  · simp [hrejected, Inbound.complete, settle, hpending]
  replace hrejected : final.isRejected = false := by simpa using hrejected
  have hinterim : final.isInterim = false := hinterim.resolve_right (by simp [hrejected])
  obtain ⟨next, hrecv, -⟩ := StreamState.recv_headers (.inl rfl) boundary
  have hrecv' : (Inbound.new window).state.recv (.headers boundary) = .ok next := hrecv
  simp only [hrejected, Bool.false_eq_true, ↓reduceIte, Inbound.complete, hinterim, false_and,
    or_self, hrecv', Inbound.account]
  have hmethod : (Inbound.new window).method.getD .other = .other := rfl
  rw [hmethod]
  cases final.content .other with
  | error error => simp [settle, hpending]
  | ok opened =>
    obtain ⟨content, remaining⟩ := opened
    simp only
    cases content.receive remaining 0 (boundary == .end) with
    | error error => simp [settle, hpending]
    | ok left =>
      cases boundary with
      | more =>
        obtain rfl : next = .open := (Except.ok.inj hrecv).symm
        cases queued <;> rfl
      | «end» =>
        obtain rfl : next = .halfClosedRemote := (Except.ok.inj hrecv).symm
        cases queued <;> rfl

/-- The first section of a stream leads to what it makes of a new record. -/
theorem leads_block_unopened (hinterim : block.final.isInterim = false ∨
      block.final.isRejected = true)
    (hQ : Stable (step .server window) Step.isFrame Q) (hQI : ∀ s, Q s → s.Within declared)
    (hsettle : ∀ (s : Stream) (record : Inbound), s.delivered = 0 →
      record.Waits ∧ record.method.getD .other = .other →
      Q (s.settle (record.complete .server block.final boundary .initial block.queued)
        [.headers block.final boundary .initial])) :
    Leads (step .server window) Step.isFrame (Within declared) Unopened (block.steps boundary)
      Q := by
  let Opened : Inbound → Prop := fun record =>
    record.Waits ∧ record.method.getD .other = .other
  have hnew : Opened (Inbound.new window) := ⟨⟨rfl, .inl rfl⟩, rfl⟩
  have hwithin : ∀ s, Unopened s → s.Within declared := by
    rintro s ⟨-, hdelivered, -⟩ length -
    rw [hdelivered]
    exact Nat.zero_le _
  unfold Block.steps
  split
  · have hpending : Stable (step .server window) Step.isFrame
        (At (some ⟨boundary, .initial, none⟩) Opened 0) := stable_at (kept_waits .other) _
    have hchain : Leads (step .server window) Step.isFrame (Within declared) Unopened
        [.chain boundary] (At (some ⟨boundary, .initial, none⟩) Opened 0) := by
      refine Leads.one stable_unopened hpending hwithin
        (fun _ => within_at fun _ _ _ _ => Nat.zero_le _) ?_
      rintro self ⟨hnone, hdelivered, hstatus⟩
      simp only [step, hnone, chain, hstatus]
      exact ⟨rfl, hdelivered, _, rfl, hnew⟩
    refine hchain.append
      (Leads.one hpending hQ (fun _ => within_at fun _ _ _ _ => Nat.zero_le _) hQI ?_)
    rintro self ⟨hsome, hdelivered, record, hstatus, hP⟩
    simp only [step, hsome, finish, hstatus]
    exact hsettle self record hdelivered hP
  · refine Leads.one stable_unopened hQ hwithin hQI ?_
    rintro self hself
    simp only [step, hself.1, headers_unopened hself hinterim]
    exact hsettle self _ hself.2.1 hnew

/-- The phase in which the body of a message comes in. -/
def Body (declared : Option ℕ) (bare : Prop) (received : ℕ) : Stream → Prop :=
  At none (Inbound.InBody declared bare received) received

/-- The phase after an error. -/
def Failed (declared : Option ℕ) (self : Stream) : Prop :=
  self.Dead ∧ self.Within declared

theorem inBody_le {declared : Option ℕ} {bare : Prop} {received : ℕ} {record : Inbound}
    (h : record.InBody declared bare received) :
    ∀ length, declared = some length → received ≤ length := by
  rintro length rfl
  exact h.tracks.le

theorem stable_failed : Stable (step endpoint window) Step.isFrame (Failed declared) := by
  rintro self event - ⟨hdead, hwithin⟩
  obtain ⟨hdead, hevents⟩ := dead_step event hdead
  exact ⟨hdead, by simpa only [Within, delivered, hevents] using hwithin⟩

theorem failed_of_fails {bare : Prop} {self : Stream} {record : Inbound}
    {result : Except ConnError Disposition} {events : List Notification}
    (hdelivered : self.delivered = received) (h : record.InBody declared bare received)
    (hresult : Fails result) : Failed declared (self.settle result events) := by
  obtain ⟨hdead, hsame⟩ := settle_fails self hresult events
  refine ⟨hdead, fun length hlength => ?_⟩
  rw [hsame, hdelivered]
  exact inBody_le h length hlength

theorem leads_data {bare : Prop} (frame : DataFrame) (boundary : Boundary)
    (hQ : Stable (step endpoint window) Step.isFrame Q) (hQI : ∀ s, Q s → s.Within declared)
    (hstep : ∀ (s : Stream) (record : Inbound), s.delivered = received →
      record.InBody declared bare received → s.pending = none → s.status = .live record →
      Q (s.data frame.payload boundary frame.receive frame.queued)) :
    Leads (step endpoint window) Step.isFrame (Within declared) (Body declared bare received)
      [frame.step boundary] Q := by
  refine Leads.one (stable_at (kept_inBody _ _ _) none) hQ
    (fun _ => within_at fun _ => inBody_le) hQI ?_
  rintro self ⟨hnone, hdelivered, record, hstatus, hbody⟩
  simp only [DataFrame.step, step, hnone]
  exact hstep self record hdelivered hbody hnone hstatus

theorem leads_data_fails {bare : Prop} {frame : DataFrame} (boundary : Boundary)
    (h : ¬ (frame.IsAdmitted ∧ Fits declared (received + frame.len) (boundary == .end))) :
    Leads (step endpoint window) Step.isFrame (Within declared) (Body declared bare received)
      [frame.step boundary] (Failed declared) := by
  refine leads_data frame boundary stable_failed (fun _ h => h.2) ?_
  intro self record hdelivered hbody hnone hstatus
  unfold data
  cases hunpadded : frame.payload.unpadded with
  | error error =>
    refine ⟨.inr ⟨error, rfl⟩, fun length hlength => ?_⟩
    exact hdelivered.symm ▸ inBody_le hbody length hlength
  | ok len =>
    simp only [hstatus]
    refine failed_of_fails hdelivered hbody (Inbound.apply_fails hbody ?_ frame.queued)
    have hlen : frame.len = len := by simp only [DataFrame.len, hunpadded]
    have hsome : frame.payload.unpadded.toOption.isSome = true := by simp [hunpadded]
    rw [hlen] at h
    by_cases hreceive : frame.receive = .admitted
    · exact .inl fun hfits => h ⟨⟨hsome, hreceive⟩, hfits⟩
    · exact .inr hreceive

theorem unpadded_of_isAdmitted {frame : DataFrame} (h : frame.IsAdmitted) :
    frame.payload.unpadded = .ok frame.len := by
  have hsome := h.1
  unfold DataFrame.len
  cases hunpadded : frame.payload.unpadded with
  | error error => simp [hunpadded] at hsome
  | ok len => rfl

theorem leads_data_more {bare : Prop} {frame : DataFrame} (hadmitted : frame.IsAdmitted)
    (hfits : Fits declared (received + frame.len) false) :
    Leads (step endpoint window) Step.isFrame (Within declared) (Body declared bare received)
      [frame.step .more] (Body declared bare (received + frame.len)) := by
  refine leads_data frame .more (stable_at (kept_inBody _ _ _) none)
    (fun _ => within_at fun _ => inBody_le) ?_
  intro self record hdelivered hbody hnone hstatus
  simp only [data, unpadded_of_isAdmitted hadmitted, hstatus, hadmitted.2]
  have hgoes := settle_goes self (Inbound.apply_more hbody hfits frame.queued)
    [.data frame.len .more]
  simpa [Body, hdelivered, Notification.len] using hgoes

theorem leads_data_end {bare : Prop} {frame : DataFrame} (hadmitted : frame.IsAdmitted)
    (hfits : Fits declared (received + frame.len) true) :
    Leads (step endpoint window) Step.isFrame (Within declared) (Body declared bare received)
      [frame.step .end] (fun s => s.Completed ∧ s.delivered = received + frame.len) := by
  refine leads_data frame .end stable_completed ?_ ?_
  · rintro s ⟨-, hdelivered⟩ length hlength
    exact hdelivered ▸ (hfits length hlength).1
  · intro self record hdelivered hbody hnone hstatus
    simp only [data, unpadded_of_isAdmitted hadmitted, hstatus, hadmitted.2]
    have hends := settle_ends self (Inbound.apply_end hbody hfits frame.queued)
      [.data frame.len .end]
    simpa [hdelivered, Notification.len] using hends

/-- The number of content bytes in a list of DATA frames. -/
def total (frames : List DataFrame) : ℕ :=
  (frames.map DataFrame.len).sum

theorem fits_of_le {received' : ℕ} (h : Fits declared received' false)
    (hle : received ≤ received') : Fits declared received false :=
  fun length hlength => ⟨hle.trans (h length hlength).1, by simp⟩

/-- The DATA frames before the last frame are let through up to the declared length. -/
theorem leads_body {bare : Prop} {frames : List DataFrame}
    (hadmitted : ∀ frame ∈ frames, frame.IsAdmitted)
    (hfits : Fits declared (received + total frames) false) :
    Leads (step endpoint window) Step.isFrame (Within declared) (Body declared bare received)
      (frames.map fun frame => frame.step .more)
      (Body declared bare (received + total frames)) := by
  induction frames generalizing received with
  | nil =>
    exact Leads.nil (stable_at (kept_inBody _ _ _) none) fun _ => within_at fun _ => inBody_le
  | cons frame frames ih =>
    have htotal : received + total (frame :: frames) = received + frame.len + total frames := by
      simp only [total, List.map_cons, List.sum_cons]
      omega
    rw [htotal] at hfits ⊢
    exact (leads_data_more (hadmitted frame List.mem_cons_self)
      (fits_of_le hfits (Nat.le_add_right _ _))).append
        (ih (fun other hother => hadmitted other (List.mem_cons_of_mem _ hother)) hfits)

theorem leads_body_start {bare : Prop} {frames : List DataFrame}
    (hadmitted : ∀ frame ∈ frames, frame.IsAdmitted) (hfits : Fits declared (total frames) false) :
    Leads (step endpoint window) Step.isFrame (Within declared) (Body declared bare 0)
      (frames.map fun frame => frame.step .more) (Body declared bare (total frames)) := by
  rw [← Nat.zero_add (total frames)] at hfits ⊢
  exact leads_body hadmitted hfits

theorem leads_body_fails {bare : Prop} {frames : List DataFrame}
    (h : ¬ ((∀ frame ∈ frames, frame.IsAdmitted) ∧
      Fits declared (received + total frames) false)) :
    Leads (step endpoint window) Step.isFrame (Within declared) (Body declared bare received)
      (frames.map fun frame => frame.step .more) (Failed declared) := by
  induction frames generalizing received with
  | nil =>
    -- What has been received so far fits, so an empty list cannot fail.
    rintro self run ⟨-, -, record, -, hbody⟩ -
    exact absurd ⟨by simp, fun length hlength => ⟨inBody_le hbody length hlength, by simp⟩⟩ h
  | cons frame frames ih =>
    have htotal : received + total (frame :: frames) = received + frame.len + total frames := by
      simp only [total, List.map_cons, List.sum_cons]
      omega
    rw [htotal] at h
    by_cases hframe : frame.IsAdmitted ∧ Fits declared (received + frame.len) false
    · refine (leads_data_more hframe.1 hframe.2).append (ih fun hrest => h ⟨?_, hrest.2⟩)
      exact List.forall_mem_cons.mpr ⟨hframe.1, hrest.1⟩
    · exact (leads_data_fails .more hframe).append (leads_dead _)

end Frames

end Stream

end Sark.H2
