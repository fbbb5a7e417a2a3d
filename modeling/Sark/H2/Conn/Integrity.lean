import Sark.H2.Conn.Accounting

/-!
# Message integrity

The frames of a message take its stream from phase to phase. Put together, the triples of the
single frames say what becomes of every message, whichever way its sections are cut into frames and
whatever this end does in between.

* `Message.Keeps`: the message keeps to what its head declares.
* `Stream.message_accounted`: a message is completed exactly when it keeps to what its head
  declares; no start of a run delivers more than that; interim responses leave the accounting as
  it was.
-/

namespace Sark.H2

open Metadata (Content Framing Method Response Fits)

/-! ## Messages -/

/-- How a message goes on behind its head. -/
inductive Tail
  | absent
  | data (body : List DataFrame) (last : DataFrame)
  | trailers (body : List DataFrame) (block : Block)
  deriving DecidableEq, Repr

namespace Tail

/-- END_STREAM stands on the head exactly if nothing follows it. -/
def boundary : Tail → Boundary
  | .absent => .end
  | _ => .more

def steps : Tail → List Step
  | .absent => []
  | .data body last => body.map (fun frame => frame.step .more) ++ [last.step .end]
  | .trailers body block => body.map (fun frame => frame.step .more) ++ block.steps .end

/-- The DATA frames before the last frame. -/
def body : Tail → List DataFrame
  | .absent => []
  | .data body _ | .trailers body _ => body

def frames : Tail → List DataFrame
  | .absent => []
  | .data body last => body ++ [last]
  | .trailers body _ => body

def blocks : Tail → List Block
  | .trailers _ block => [block]
  | _ => []

end Tail

/-- A message: interim responses, the head, and what follows it. -/
structure Message where
  interims : List Block
  head : Block
  tail : Tail
  deriving DecidableEq, Repr

namespace Message

/-- The frames of the interim responses. -/
def interimSteps (self : Message) : List Step :=
  self.interims.flatMap fun block => block.steps .more

/-- The frames of the message. -/
def steps (self : Message) : List Step :=
  self.interimSteps ++ (self.head.steps self.tail.boundary ++ self.tail.steps)

/-- The number of content bytes, padding excluded. -/
def received (self : Message) : ℕ :=
  Stream.total self.tail.frames

/-- The length that the head declares for its message. -/
def declared (self : Message) (method : Method) : Option ℕ :=
  self.head.final.framing?.bind fun framing => framing.declared method

/-- What the validation of the sections yields at this endpoint: interim responses come to a client
only, a head has its framing values, and trailers are no response. -/
structure Yielded (endpoint : Endpoint) (message : Message) : Prop where
  interims : ∀ block ∈ message.interims,
    block.final.isInterim = true ∨ block.final.isRejected = true
  server : endpoint = .server → message.interims = []
  head : message.head.final.isInterim = false ∧ message.head.final.framing?.isSome = true ∨
    message.head.final.isRejected = true
  trailers : ∀ block ∈ message.tail.blocks,
    block.final.isInterim = false ∨ block.final.isRejected = true

/-- The sections of the message are valid, and its DATA frames are well padded and within the
receive windows. -/
def Intact (self : Message) : Prop :=
  (∀ block ∈ self.interims ++ self.head :: self.tail.blocks, block.final.isRejected = false) ∧
    ∀ frame ∈ self.tail.frames, frame.IsAdmitted

/-- The message keeps to what its head declares: the head does not contradict itself, the bytes
make up the length that it declares, and there are trailers only where they may stand. -/
def Keeps (self : Message) (method : Method) : Prop :=
  ∀ framing, self.head.final.framing? = some framing →
    ¬ framing.Contradicts method ∧ Fits (framing.declared method) self.received true ∧
      (self.tail.blocks ≠ [] → ¬ (framing.IsBare method ∨ framing.IsTunnel method))

end Message

/-! ## Triples of whole messages -/

namespace Stream

/-- A stream on which a message is to begin: a server's is opened by it, a client's has been opened
by its request or by a promise. -/
def Fresh (endpoint : Endpoint) (self : Stream) : Prop :=
  self.pending = none ∧ self.events = [] ∧
    match endpoint with
    | .server => self.status = .idle
    | .client => ∃ record, self.status = .live record ∧ record.Waits

/-- The method of the request that the message answers. -/
def method (self : Stream) : Method :=
  match self.status with
  | .live record => record.method.getD .other
  | _ => .other

/-- The record still awaits its head, and its accounting is that of `origin`. -/
def Awaits (origin record : Inbound) : Prop :=
  record.Waits ∧ record.content = origin.content ∧ record.remaining = origin.remaining ∧
    record.method = origin.method

theorem kept_awaits (origin : Inbound) : Kept (Awaits origin) := by
  rintro record act ⟨hwaits, hsame⟩
  have hact := hwaits.act act
  refine ⟨?_, hact, hsame⟩
  rcases hact.2 with h | h | h | h <;> simp [h]

/-- The phase before the head. -/
def Ready : Endpoint → Method → Stream → Prop
  | .server, method, self => self.Unopened ∧ method = .other
  | .client, method, self =>
    At none (fun record => record.Waits ∧ record.method.getD .other = method) 0 self

section Triples

variable {endpoint : Endpoint} {window : Window} {declared : Option ℕ} {bare : Prop}
  {received : ℕ} {Q : Stream → Prop}

theorem within_of_zero {self : Stream} (h : self.delivered = 0) : self.Within declared := by
  intro length _
  rw [h]
  exact Nat.zero_le _

theorem leads_interim {origin : Inbound} {block : Block}
    (hinterim : block.final.isInterim = true) (hvalid : block.final.isRejected = false) :
    Leads (step .client window) Step.isFrame (Within declared) (At none (Awaits origin) 0)
      (block.steps .more) (At none (Awaits origin) 0) := by
  refine leads_block .initial (kept_awaits origin) (fun _ h => h.1.section_eq) (by simp)
    (fun _ _ _ _ => Nat.zero_le _) (stable_at (kept_awaits origin) none)
    (fun _ h => within_of_zero h.2.1) ?_
  intro self record hdelivered ⟨hwaits, hcontent, hremaining, hmethod⟩
  obtain ⟨kept, hresult, hkept, hcontent', hremaining', hmethod'⟩ :=
    Inbound.complete_interim .client hwaits hvalid hinterim block.queued
  rw [← Nat.add_zero 0]
  nth_rewrite 1 [← hdelivered]
  exact settle_goes self ⟨kept, hresult, hkept, hcontent'.trans hcontent,
    hremaining'.trans hremaining, (hmethod' rfl).trans hmethod⟩ _

theorem leads_rejected {origin : Inbound} {block : Block} {boundary : Boundary}
    (hrejected : block.final.isRejected = true) :
    Leads (step .client window) Step.isFrame (Within declared) (At none (Awaits origin) 0)
      (block.steps boundary) (Failed declared) := by
  refine leads_block .initial (kept_awaits origin) (fun _ h => h.1.section_eq) (by simp)
    (fun _ _ _ _ => Nat.zero_le _) stable_failed (fun _ h => h.2) ?_
  intro self record hdelivered _
  have hfails : Fails (record.complete .client block.final boundary .initial block.queued) :=
    Inbound.complete_of_rejected hrejected boundary .initial block.queued
  obtain ⟨hdead, hsame⟩ := settle_fails self hfails [.headers block.final boundary .initial]
  exact ⟨hdead, within_of_zero (hsame.trans hdelivered)⟩

theorem leads_interims {origin : Inbound} {interims : List Block}
    (hinterims : ∀ block ∈ interims, block.final.isInterim = true ∨ block.final.isRejected = true)
    (hvalid : ∀ block ∈ interims, block.final.isRejected = false) :
    Leads (step .client window) Step.isFrame (Within declared) (At none (Awaits origin) 0)
      (interims.flatMap fun block => block.steps .more) (At none (Awaits origin) 0) := by
  induction interims with
  | nil => exact Leads.nil (stable_at (kept_awaits origin) none) fun _ h => within_of_zero h.2.1
  | cons block interims ih =>
    rw [List.flatMap_cons]
    have hblock := hvalid block List.mem_cons_self
    exact (leads_interim ((hinterims block List.mem_cons_self).resolve_right (by simp [hblock]))
      hblock).append (ih (fun other hother => hinterims other (List.mem_cons_of_mem _ hother))
        fun other hother => hvalid other (List.mem_cons_of_mem _ hother))

theorem leads_interims_fails {origin : Inbound} {interims : List Block}
    (hinterims : ∀ block ∈ interims, block.final.isInterim = true ∨ block.final.isRejected = true)
    (h : ¬ ∀ block ∈ interims, block.final.isRejected = false) :
    Leads (step .client window) Step.isFrame (Within declared) (At none (Awaits origin) 0)
      (interims.flatMap fun block => block.steps .more) (Failed declared) := by
  induction interims with
  | nil => exact absurd (by simp) h
  | cons block interims ih =>
    rw [List.flatMap_cons]
    by_cases hblock : block.final.isRejected = true
    · exact (leads_rejected hblock).append (leads_dead _)
    · have hvalid : block.final.isRejected = false := by simpa using hblock
      refine (leads_interim ((hinterims block List.mem_cons_self).resolve_right hblock)
        hvalid).append (ih (fun other hother => hinterims other (List.mem_cons_of_mem _ hother)) ?_)
      exact fun hrest => h (List.forall_mem_cons.mpr ⟨hvalid, hrest⟩)

theorem leads_head {method : Method} {block : Block} {boundary : Boundary}
    (hinterim : block.final.isInterim = false ∨ block.final.isRejected = true)
    (hQ : Stable (step endpoint window) Step.isFrame Q) (hQI : ∀ s, Q s → s.Within declared)
    (hsettle : ∀ (s : Stream) (record : Inbound), s.delivered = 0 →
      record.Waits → record.method.getD .other = method →
      Q (s.settle (record.complete endpoint block.final boundary .initial block.queued)
        [.headers block.final boundary .initial])) :
    Leads (step endpoint window) Step.isFrame (Within declared) (Ready endpoint method)
      (block.steps boundary) Q := by
  cases endpoint with
  | server =>
    -- A new record knows no method, and a request needs none.
    rintro self run ⟨hself, rfl⟩ hrun
    exact leads_block_unopened hinterim hQ hQI
      (fun s record hdelivered h => hsettle s record hdelivered h.1 h.2) self run hself hrun
  | client =>
    exact leads_block .initial (kept_waits method) (fun _ h => h.1.section_eq) (by simp)
      (fun _ _ _ _ => Nat.zero_le _) hQ hQI
      fun s record hdelivered h => hsettle s record hdelivered h.1 h.2

theorem leads_open {method : Method} {block : Block} {framing : Framing}
    (hframing : block.final.framing? = some framing) (hinterim : block.final.isInterim = false)
    (hclear : ¬ framing.Contradicts method) :
    Leads (step endpoint window) Step.isFrame (Within (framing.declared method))
      (Ready endpoint method) (block.steps .more)
      (Body (framing.declared method) (framing.IsBare method ∨ framing.IsTunnel method) 0) := by
  refine leads_head (.inl hinterim) (stable_at (kept_inBody _ _ _) none)
    (fun _ => within_at fun _ => inBody_le) ?_
  rintro self record hdelivered hwaits rfl
  have hgoes := settle_goes self (Inbound.complete_head_more hwaits hframing hinterim
    endpoint hclear block.queued) [.headers block.final .more .initial]
  simpa [Body, hdelivered, Notification.len] using hgoes

theorem leads_whole {method : Method} {block : Block} {framing : Framing}
    (hframing : block.final.framing? = some framing) (hinterim : block.final.isInterim = false)
    (hclear : ¬ framing.Contradicts method) (hfits : Fits (framing.declared method) 0 true) :
    Leads (step endpoint window) Step.isFrame (Within declared) (Ready endpoint method)
      (block.steps .end) (fun s => s.Completed ∧ s.delivered = 0) := by
  refine leads_head (.inl hinterim) stable_completed (fun s h => within_of_zero h.2) ?_
  rintro self record hdelivered hwaits rfl
  have hends := settle_ends self (Inbound.complete_head_end hwaits hframing hinterim
    endpoint hclear hfits block.queued) [.headers block.final .end .initial]
  simpa [hdelivered, Notification.len] using hends

theorem leads_head_fails {method : Method} {block : Block} {boundary : Boundary}
    (hhead : block.final.isInterim = false ∧ block.final.framing?.isSome = true ∨
      block.final.isRejected = true)
    (h : ∀ framing, block.final.framing? = some framing →
      framing.Contradicts method ∨ ¬ Fits (framing.declared method) 0 (boundary == .end)) :
    Leads (step endpoint window) Step.isFrame (Within declared) (Ready endpoint method)
      (block.steps boundary) (Failed declared) := by
  refine leads_head (hhead.imp_left And.left) stable_failed (fun _ h => h.2) ?_
  rintro self record hdelivered hwaits rfl
  have hfails : Fails (record.complete endpoint block.final boundary .initial block.queued) := by
    rcases hhead with ⟨hinterim, hsome⟩ | hrejected
    · obtain ⟨framing, hframing⟩ := Option.isSome_iff_exists.mp hsome
      exact Inbound.complete_head_fails hwaits hframing hinterim (h framing hframing) block.queued
    · exact Inbound.complete_of_rejected hrejected boundary .initial block.queued
  obtain ⟨hdead, hsame⟩ := settle_fails self hfails [.headers block.final boundary .initial]
  exact ⟨hdead, within_of_zero (hsame.trans hdelivered)⟩

/-- What follows the head of a message that keeps to it. -/
theorem leads_tail {tail : Tail} (htail : tail ≠ .absent)
    (hblocks : ∀ block ∈ tail.blocks,
      block.final.isInterim = false ∧ block.final.isRejected = false)
    (hadmitted : ∀ frame ∈ tail.frames, frame.IsAdmitted)
    (hfits : Fits declared (total tail.frames) true) (hbare : tail.blocks ≠ [] → ¬ bare) :
    Leads (step endpoint window) Step.isFrame (Within declared) (Body declared bare 0) tail.steps
      (fun s => s.Completed ∧ s.delivered = total tail.frames) := by
  have hloose : ∀ {received}, Fits declared received true → Fits declared received false :=
    fun h length hlength => ⟨(h length hlength).1, by simp⟩
  cases tail with
  | absent => exact absurd rfl htail
  | data body last =>
    have htotal : total (Tail.data body last).frames = total body + last.len := by
      simp [total, Tail.frames]
    rw [htotal] at hfits ⊢
    have hbody : Fits declared (total body) false :=
      fits_of_le (hloose hfits) (Nat.le_add_right _ _)
    exact (leads_body_start (fun frame hframe => hadmitted frame (List.mem_append_left _ hframe))
      hbody).append
        (leads_data_end (hadmitted last (List.mem_append_right _ List.mem_cons_self)) hfits)
  | trailers body block =>
    obtain ⟨hinterim, hvalid⟩ := hblocks block List.mem_cons_self
    refine (leads_body_start hadmitted (hloose hfits)).append (leads_block .trailing
      (kept_inBody _ _ _)
      (fun _ h => h.receives.section_eq) (by simp) (fun _ => inBody_le) stable_completed ?_ ?_)
    · rintro s ⟨-, hdelivered⟩ length hlength
      exact hdelivered ▸ (hfits length hlength).1
    · intro self record hdelivered hinBody
      have hends := settle_ends self (Inbound.complete_trailers endpoint
        hinBody hvalid hinterim hfits (hbare (by simp [Tail.blocks])) block.queued)
        [.headers block.final .end .trailing]
      simpa [hdelivered, Notification.len, Tail.frames] using hends

theorem leads_tail_fails {tail : Tail} (htail : tail ≠ .absent)
    (hinterim : ∀ block ∈ tail.blocks,
      block.final.isInterim = false ∨ block.final.isRejected = true)
    (h : ¬ ((∀ block ∈ tail.blocks, block.final.isRejected = false) ∧
      (∀ frame ∈ tail.frames, frame.IsAdmitted) ∧ Fits declared (total tail.frames) true ∧
      (tail.blocks ≠ [] → ¬ bare))) :
    Leads (step endpoint window) Step.isFrame (Within declared) (Body declared bare 0) tail.steps
      (Failed declared) := by
  -- The body fails, or else the frame that ends the message does.
  by_cases hbody : (∀ frame ∈ tail.body, frame.IsAdmitted) ∧
      Fits declared (total tail.body) false
  · cases tail with
    | absent => exact absurd rfl htail
    | data body last =>
      refine (leads_body_start hbody.1 hbody.2).append (leads_data_fails .end fun hlast => h ⟨?_, ?_, ?_, ?_⟩)
      · simp [Tail.blocks]
      · intro frame hframe
        rcases List.mem_append.mp hframe with hframe | hframe
        · exact hbody.1 frame hframe
        · exact List.mem_singleton.mp hframe ▸ hlast.1
      · simpa [total, Tail.frames, Tail.body] using hlast.2
      · simp [Tail.blocks]
    | trailers body block =>
      refine (leads_body_start hbody.1 hbody.2).append (leads_block .trailing (kept_inBody _ _ _)
        (fun _ h => h.receives.section_eq) (by simp) (fun _ => inBody_le) stable_failed
        (fun _ h => h.2) ?_)
      intro self record hdelivered hinBody
      refine failed_of_fails hdelivered hinBody ?_
      by_cases hrejected : block.final.isRejected = true
      · exact Inbound.complete_of_rejected hrejected .end .trailing block.queued
      have hvalid : block.final.isRejected = false := by simpa using hrejected
      refine Inbound.complete_trailers_fails hinBody hvalid
        ((hinterim block List.mem_cons_self).resolve_right hrejected) ?_ block.queued
      by_cases hfits : Fits declared (total body) true
      · refine .inr (by_contra fun hbare => h ⟨?_, hbody.1, hfits, fun _ => hbare⟩)
        intro other hother
        exact List.mem_singleton.mp hother ▸ hvalid
      · exact .inl hfits
  · rw [← Nat.zero_add (total tail.body)] at hbody
    cases tail with
    | absent => exact absurd rfl htail
    | data body last => exact (leads_body_fails hbody).append (leads_dead _)
    | trailers body block => exact (leads_body_fails hbody).append (leads_dead _)

theorem declared_eq {message : Message} {framing : Framing}
    (h : message.head.final.framing? = some framing) (method : Method) :
    message.declared method = framing.declared method := by
  simp only [Message.declared, h, Option.bind_some]

theorem boundary_of_ne {tail : Tail} (h : tail ≠ .absent) : tail.boundary = .more := by
  cases tail with
  | absent => exact absurd rfl h
  | data body last => rfl
  | trailers body block => rfl

section Message

variable {message : Message} {method : Method} (hyielded : message.Yielded endpoint)

include hyielded

/-- A message that keeps to what its head declares, behind its interim responses. -/
theorem leads_kept
    (hvalid : ∀ block ∈ message.head :: message.tail.blocks, block.final.isRejected = false)
    (hadmitted : ∀ frame ∈ message.tail.frames, frame.IsAdmitted)
    (hkeeps : message.Keeps method) :
    Leads (step endpoint window) Step.isFrame (Within (message.declared method))
      (Ready endpoint method) (message.head.steps message.tail.boundary ++ message.tail.steps)
      Completed := by
  have hhead := hvalid message.head List.mem_cons_self
  obtain ⟨hinterim, hsome⟩ := hyielded.head.resolve_right (by simp [hhead])
  obtain ⟨framing, hframing⟩ := Option.isSome_iff_exists.mp hsome
  obtain ⟨hclear, hfits, hbare⟩ := hkeeps framing hframing
  rw [declared_eq hframing]
  by_cases htail : message.tail = .absent
  · -- The head is the whole message.
    rw [Message.received, htail] at hfits
    rw [htail, Tail.steps, List.append_nil]
    exact (leads_whole hframing hinterim hclear hfits).weaken (fun _ h => h) fun _ h => h.1
  · rw [boundary_of_ne htail]
    refine (leads_open hframing hinterim hclear).append
      ((leads_tail htail ?_ hadmitted hfits hbare).weaken (fun _ h => h) fun _ h => h.1)
    intro block hblock
    have hblock' := hvalid block (List.mem_cons_of_mem _ hblock)
    exact ⟨(hyielded.trailers block hblock).resolve_right (by simp [hblock']), hblock'⟩

/-- A message that does not, behind its interim responses. -/
theorem leads_broken
    (hnot : ¬ ((∀ block ∈ message.head :: message.tail.blocks, block.final.isRejected = false) ∧
      (∀ frame ∈ message.tail.frames, frame.IsAdmitted) ∧ message.Keeps method)) :
    Leads (step endpoint window) Step.isFrame (Within (message.declared method))
      (Ready endpoint method) (message.head.steps message.tail.boundary ++ message.tail.steps)
      (Failed (message.declared method)) := by
  by_cases hhead : ∃ framing, message.head.final.framing? = some framing ∧
      ¬ framing.Contradicts method ∧
      Fits (framing.declared method) 0 (message.tail.boundary == .end) ∧
      message.head.final.isInterim = false
  · obtain ⟨framing, hframing, hclear, hfits, hinterim⟩ := hhead
    have hvalid := Inbound.isRejected_of_framing hframing
    -- The head is let through, so that the tail is at fault.
    have hkeeps : ∀ {P : Prop}, Fits (framing.declared method) message.received true →
        (message.tail.blocks ≠ [] →
          ¬ (framing.IsBare method ∨ framing.IsTunnel method)) →
        (message.Keeps method → P) → P := by
      intro P hlength hbare h
      refine h fun framing' hframing' => ?_
      obtain rfl : framing = framing' := Option.some.inj (hframing.symm.trans hframing')
      exact ⟨hclear, hlength, hbare⟩
    have htail : message.tail ≠ .absent := by
      intro htail
      refine hkeeps ?_ ?_ fun hkeeps => hnot ⟨?_, ?_, hkeeps⟩
      · simpa [Message.received, htail, Tail.frames, Tail.boundary, total] using hfits
      · simp [htail, Tail.blocks]
      · simpa [htail, Tail.blocks] using hvalid
      · simp [htail, Tail.frames]
    rw [declared_eq hframing, boundary_of_ne htail]
    refine (leads_open hframing hinterim hclear).append
      (leads_tail_fails htail hyielded.trailers ?_)
    rintro ⟨hblocks, hadmitted, hlength, hbare⟩
    exact hkeeps hlength hbare fun hkeeps =>
      hnot ⟨List.forall_mem_cons.mpr ⟨hvalid, hblocks⟩, hadmitted, hkeeps⟩
  · refine (leads_head_fails hyielded.head fun framing hframing => ?_).append (leads_dead _)
    by_contra hclear
    obtain ⟨hclear, hfits⟩ := not_or.mp hclear
    have hinterim := (hyielded.head.resolve_right (by
      simp [Inbound.isRejected_of_framing hframing])).1
    exact hhead ⟨framing, hframing, hclear, not_not.mp hfits, hinterim⟩

end Message

theorem ready_of_fresh {start : Stream} (h : start.Fresh endpoint) :
    Ready endpoint start.method start := by
  obtain ⟨hpending, hevents, hstatus⟩ := h
  have hdelivered : start.delivered = 0 := by simp [delivered, hevents]
  cases endpoint with
  | server => exact ⟨⟨hpending, hdelivered, hstatus⟩, by simp only [method, hstatus]⟩
  | client =>
    obtain ⟨record, hstatus, hwaits⟩ := hstatus
    exact ⟨hpending, hdelivered, record, hstatus, hwaits, by simp only [method, hstatus]⟩

theorem leads_steps (window : Window) {start : Stream} (hfresh : start.Fresh endpoint) {message : Message}
    (hyielded : message.Yielded endpoint) :
    (message.Intact ∧ message.Keeps start.method →
      Leads (step endpoint window) Step.isFrame (Within (message.declared start.method))
        (· = start) message.steps Completed) ∧
    (¬ (message.Intact ∧ message.Keeps start.method) →
      Leads (step endpoint window) Step.isFrame (Within (message.declared start.method))
        (· = start) message.steps (Failed (message.declared start.method))) := by
  have hready := ready_of_fresh hfresh
  cases endpoint with
  | server =>
    -- No interim response comes to a server.
    have hnil := hyielded.server rfl
    have hsteps : message.steps =
        message.head.steps message.tail.boundary ++ message.tail.steps := by
      simp [Message.steps, Message.interimSteps, hnil]
    rw [hsteps]
    constructor
    · rintro ⟨⟨hvalid, hadmitted⟩, hkeeps⟩
      rw [hnil, List.nil_append] at hvalid
      exact (leads_kept hyielded hvalid hadmitted hkeeps).weaken (fun _ h => h ▸ hready)
        fun _ h => h
    · intro hnot
      refine (leads_broken hyielded ?_).weaken (fun _ h => h ▸ hready) fun _ h => h
      rintro ⟨hvalid, hadmitted, hkeeps⟩
      exact hnot ⟨⟨by rwa [hnil, List.nil_append], hadmitted⟩, hkeeps⟩
  | client =>
    obtain ⟨hpending, hevents, origin, hstatus, hwaits⟩ := hfresh
    have horigin : At none (Awaits origin) 0 start :=
      ⟨hpending, by simp [delivered, hevents], origin, hstatus, hwaits, rfl, rfl, rfl⟩
    have hmethod : start.method = origin.method.getD .other := by simp only [method, hstatus]
    have hnext : ∀ s : Stream, At none (Awaits origin) 0 s → Ready .client start.method s := by
      rintro s ⟨hnone, hzero, record, hlive, hrecord, -, -, hsame⟩
      exact ⟨hnone, hzero, record, hlive, hrecord, by rw [hsame, hmethod]⟩
    have hstart : ∀ s : Stream, s = start → At none (Awaits origin) 0 s := fun _ h => h ▸ horigin
    by_cases hinterims : ∀ block ∈ message.interims, block.final.isRejected = false
    · have hfirst : Leads (step .client window) Step.isFrame
          (Within (message.declared start.method)) (At none (Awaits origin) 0)
          (message.interims.flatMap fun block => block.steps .more) (At none (Awaits origin) 0) :=
        leads_interims hyielded.interims hinterims
      constructor
      · rintro ⟨⟨hvalid, hadmitted⟩, hkeeps⟩
        exact (hfirst.weaken hstart hnext).append (leads_kept hyielded
          (fun block hblock => hvalid block (List.mem_append_right _ hblock)) hadmitted hkeeps)
      · intro hnot
        refine (hfirst.weaken hstart hnext).append (leads_broken hyielded ?_)
        rintro ⟨hvalid, hadmitted, hkeeps⟩
        exact hnot ⟨⟨List.forall_mem_append.mpr ⟨hinterims, hvalid⟩, hadmitted⟩, hkeeps⟩
    · constructor
      · rintro ⟨⟨hvalid, -⟩, -⟩
        exact absurd (fun block hblock => hvalid block (List.mem_append_left _ hblock)) hinterims
      intro _
      exact ((leads_interims_fails hyielded.interims hinterims).weaken hstart
        fun _ h => h).append (leads_dead _)

end Triples

/-- For every stream on which a message is to begin, every message that may come on it, and every
run whose frames are those of the message: the message is completed exactly when it is intact and
keeps to what its head declares; no start of the run delivers more bytes than the head declares;
and the interim responses leave the accounting as it was and the head awaited. -/
theorem message_accounted (endpoint : Endpoint) (window : Window) (start : Stream)
    (message : Message) (hfresh : start.Fresh endpoint) (hyielded : message.Yielded endpoint) :
    (∀ steps, steps.filter Step.isFrame = message.steps →
      ((start.run endpoint window steps).Completed ↔
        message.Intact ∧ message.Keeps start.method) ∧
      ∀ first, first <+: steps →
        (start.run endpoint window first).Within (message.declared start.method)) ∧
    ∀ steps record, steps.filter Step.isFrame = message.interimSteps → message.Intact →
      start.status = .live record →
      ∃ left, (start.run endpoint window steps).status = .live left ∧
        left.section = .initial ∧ left.content = record.content ∧
        left.remaining = record.remaining := by
  constructor
  · intro steps hsteps
    obtain ⟨hkept, hbroken⟩ := leads_steps window hfresh hyielded
    by_cases hmessage : message.Intact ∧ message.Keeps start.method
    · obtain ⟨hwithin, hend⟩ := hkept hmessage start steps rfl hsteps
      exact ⟨iff_of_true hend hmessage, hwithin⟩
    · obtain ⟨hwithin, hend⟩ := hbroken hmessage start steps rfl hsteps
      exact ⟨iff_of_false (fun hcompleted => hcompleted.not_dead hend.1) hmessage, hwithin⟩
  · intro steps record hsteps hintact hlive
    cases endpoint with
    | server => simp [hfresh.2.2] at hlive
    | client =>
      obtain ⟨hpending, hevents, origin, hstatus, hwaits⟩ := hfresh
      obtain rfl : origin = record := Status.live.inj (hstatus.symm.trans hlive)
      have hleads : Leads (step .client window) Step.isFrame (Within none)
          (At none (Awaits origin) 0) message.interimSteps (At none (Awaits origin) 0) :=
        leads_interims hyielded.interims fun block hblock => hintact.1 block (List.mem_append_left _ hblock)
      obtain ⟨-, -, -, left, hleft, hkept, hcontent, hremaining, -⟩ := hleads start steps
        ⟨hpending, by simp [delivered, hevents], origin, hstatus, hwaits, rfl, rfl, rfl⟩ hsteps
      exact ⟨left, hleft, hkept.section_eq, hcontent, hremaining⟩

/-- A request of three bytes, whose head comes in a chain and whose last DATA frame is padded. -/
def threeBytes : Message :=
  ⟨[], ⟨.request ⟨3, none, some .other, true⟩, true, true⟩,
    .data [⟨⟨1, none⟩, .admitted, true⟩] ⟨⟨5, some 2⟩, .admitted, true⟩⟩

theorem message_accounted_threeBytes :
    ((Stream.mk .idle none []).run .server ⟨0, 0⟩ threeBytes.steps).Completed := by
  refine ((message_accounted .server ⟨0, 0⟩ ⟨.idle, none, []⟩ threeBytes ⟨rfl, rfl, rfl⟩
    ⟨by decide, by decide, .inl (by decide), by decide⟩).1 threeBytes.steps (by decide)).1.mpr ?_
  refine ⟨⟨by decide, ?_⟩, ?_⟩
  · simp [threeBytes, Tail.frames, DataFrame.IsAdmitted, Payload.unpadded, Except.toOption]
  · rintro framing hframing
    obtain rfl : ⟨3, none, some .other, true⟩ = framing := Option.some.inj hframing
    refine ⟨?_, ?_, by decide⟩
    · rintro ⟨-, status, length, hstatus, -⟩
      cases hstatus
    · intro length hlength
      obtain rfl : 3 = length := Option.some.inj hlength
      exact ⟨by decide, by decide⟩

/-- The response to a HEAD request, without content but with trailers. -/
def headWithTrailers : Message :=
  ⟨[], ⟨.response ⟨0, some 200, none, false⟩, false, true⟩,
    .trailers [] ⟨.other, false, true⟩⟩

/-- A client's stream behind its HEAD request. -/
def afterHead : Stream :=
  ⟨.live ⟨⟨.halfClosedLocal, .initial, ⟨0, 0⟩⟩, some .head, .unbounded, 0⟩, none, []⟩

/-- The trailers end an intact message of no bytes whose head declares no bytes, and yet it is not
completed. -/
theorem headWithTrailers_refused :
    headWithTrailers.Intact ∧
      Fits (headWithTrailers.declared afterHead.method) headWithTrailers.received true ∧
      ¬ (afterHead.run .client ⟨0, 0⟩ headWithTrailers.steps).Completed := by
  refine ⟨⟨by decide, by simp [headWithTrailers, Tail.frames]⟩, ?_, ?_⟩
  · intro length hlength
    have hzero : headWithTrailers.declared afterHead.method = some 0 := by decide
    obtain rfl : 0 = length := Option.some.inj (hzero.symm.trans hlength)
    exact ⟨by decide, by decide⟩
  · have hstatus : (afterHead.run .client ⟨0, 0⟩ headWithTrailers.steps).status =
        .reset .protocolError := by decide
    rintro ⟨-, hclosed | ⟨record, hlive, -⟩⟩
    · simp [hstatus] at hclosed
    · simp [hstatus] at hlive

end Stream

end Sark.H2
