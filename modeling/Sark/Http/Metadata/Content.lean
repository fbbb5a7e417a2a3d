import Mathlib.Tactic

/-!
# Content accounting of a message

A field section that was admitted fixes what content its message may carry: the declared length,
nothing, or anything. The framing values of the section are turned into a content mode and a count
of the bytes that remain; every block of content lowers the count, and the end of the message is
checked once more, either on the last block or on the trailers.

* `Framing.content`: the mode and the count that a section opens its message with.
* `Content.receive`, `Content.trailers`: what a block and the trailers do to them.
* `Framing.declared`: the number of bytes that the message must carry, read off the section.
* `Tracks`: what the mode and the count say about the bytes received so far.
* `Framing.tracks_content`, `Tracks.receive_iff`, `Tracks.trailers_iff`: the accounting starts out
  right, and each of its checks is the check of the declared length.
-/

namespace Sark.Metadata

/-! ## Methods and statuses -/

/-- `response::Method`. -/
inductive Method
  | other
  | head
  | connect
  deriving DecidableEq, Repr

/-- `response::Content`. -/
inductive ResponseContent
  | forbidden
  | suppressed
  | tunnel
  | empty
  | allowed
  deriving DecidableEq, Repr

/-- `response::Content::new`. -/
def ResponseContent.new (method : Method) (status : ℕ) : ResponseContent :=
  if method = .connect ∧ 200 ≤ status ∧ status < 300 then .tunnel
  else if status < 200 ∨ status = 204 then .forbidden
  else if method = .head ∨ status = 304 then .suppressed
  else if status = 205 then .empty
  else .allowed

theorem ResponseContent.new_cases (method : Method) (status : ℕ) :
    (new method status = .tunnel ∧ method = .connect ∧ 200 ≤ status ∧ status < 300) ∨
    (new method status = .forbidden ∧ ¬ (method = .connect ∧ 200 ≤ status ∧ status < 300) ∧
      (status < 200 ∨ status = 204)) ∨
    (new method status = .suppressed ∧ ¬ (method = .connect ∧ 200 ≤ status ∧ status < 300) ∧
      ¬ (status < 200 ∨ status = 204) ∧ (method = .head ∨ status = 304)) ∨
    (new method status = .empty ∧ ¬ (method = .connect ∧ 200 ≤ status ∧ status < 300) ∧
      ¬ (status < 200 ∨ status = 204) ∧ ¬ (method = .head ∨ status = 304) ∧ status = 205) ∨
    (new method status = .allowed ∧ ¬ (method = .connect ∧ 200 ≤ status ∧ status < 300) ∧
      ¬ (status < 200 ∨ status = 204) ∧ ¬ (method = .head ∨ status = 304) ∧ status ≠ 205) := by
  unfold new
  split
  · next h => exact .inl ⟨rfl, h⟩
  · next h₁ =>
    split
    · next h => exact .inr (.inl ⟨rfl, h₁, h⟩)
    · next h₂ =>
      split
      · next h => exact .inr (.inr (.inl ⟨rfl, h₁, h₂, h⟩))
      · next h₃ =>
        split
        · next h => exact .inr (.inr (.inr (.inl ⟨rfl, h₁, h₂, h₃, h⟩)))
        · next h₄ => exact .inr (.inr (.inr (.inr ⟨rfl, h₁, h₂, h₃, h₄⟩)))

/-- `block::Response`: the phase of the message that a status opens. -/
inductive Response
  | informational
  | final
  deriving DecidableEq, Repr

/-- The phase that `Gate::check_status` stores beside the status. -/
def Response.ofStatus (status : ℕ) : Response :=
  if status < 200 then .informational else .final

/-! ## Content -/

/-- `block::Content`. -/
inductive Content
  | unbounded
  | exact
  | empty
  | tunnel
  deriving DecidableEq, Repr

/-- `block::ContentError`. -/
inductive ContentError
  | forbiddenLength (length : ℕ)
  | nonemptyLength (length : ℕ)
  | exceeded (remaining actual : ℕ)
  | incomplete (remaining : ℕ)
  | trailers
  deriving DecidableEq, Repr

/-- `block::Framing`. -/
structure Framing where
  length : ℕ
  status : Option ℕ
  method : Option Method
  present : Bool
  deriving DecidableEq, Repr

namespace Framing

/-- `Framing::content_length`. -/
def contentLength (self : Framing) : Option ℕ :=
  if self.present then some self.length else none

/-- What `Framing::content` ends with when neither the status nor the method decides. -/
def bounded (self : Framing) : Content × ℕ :=
  match self.contentLength with
  | some length => (.exact, length)
  | none => (.unbounded, 0)

/-- `Framing::content`. -/
def content (self : Framing) (method : Method) : Except ContentError (Content × ℕ) :=
  match self.status with
  | some status =>
    match ResponseContent.new method status with
    | .tunnel => .ok (.tunnel, 0)
    | .forbidden =>
      match self.contentLength with
      | some length => .error (.forbiddenLength length)
      | none => .ok (.empty, 0)
    | .suppressed => .ok (.empty, 0)
    | .empty =>
      match self.contentLength with
      | some length => if length ≠ 0 then .error (.nonemptyLength length) else .ok (.exact, 0)
      | none => .ok (.exact, 0)
    | .allowed => .ok self.bounded
  | none => if self.method = some .connect then .ok (.tunnel, 0) else .ok self.bounded

end Framing

namespace Content

/-- `Content::receive`. -/
def receive (self : Content) (remaining bytes : ℕ) (finished : Bool) : Except ContentError ℕ :=
  match self with
  | .unbounded | .tunnel => .ok remaining
  | .empty => if bytes = 0 then .ok 0 else .error (.exceeded 0 bytes)
  | .exact =>
    if remaining < bytes then .error (.exceeded remaining bytes)
    else if finished && remaining - bytes != 0 then .error (.incomplete (remaining - bytes))
    else .ok (remaining - bytes)

/-- `Content::trailers`. -/
def trailers (self : Content) (remaining : ℕ) : Except ContentError Unit :=
  match self with
  | .unbounded => .ok ()
  | .exact => if remaining = 0 then .ok () else .error (.incomplete remaining)
  | .empty | .tunnel => .error .trailers

end Content

/-! ## What a section declares -/

namespace Framing

/-- The message is the tunnel that a CONNECT request opens. -/
def IsTunnel (self : Framing) (method : Method) : Prop :=
  match self.status with
  | some status => method = .connect ∧ 200 ≤ status ∧ status < 300
  | none => self.method = some .connect

/-- The message is a response that has no content and no trailers: it answers a HEAD request, or
its status is interim, 204 or 304. -/
def IsBare (self : Framing) (method : Method) : Prop :=
  ¬ self.IsTunnel method ∧
    ∃ status, self.status = some status ∧
      (method = .head ∨ status < 200 ∨ status = 204 ∨ status = 304)

/-- The message is a response that has no content. -/
def IsEmpty (self : Framing) (method : Method) : Prop :=
  self.IsBare method ∨ ¬ self.IsTunnel method ∧ self.status = some 205

/-- The section declares a length that its own status rules out: any length where no length may
stand, or a length above zero on a 205 response. -/
def Contradicts (self : Framing) (method : Method) : Prop :=
  ¬ self.IsTunnel method ∧ ∃ status length,
    self.status = some status ∧ self.contentLength = some length ∧
      ((status < 200 ∨ status = 204) ∨ method ≠ .head ∧ status = 205 ∧ length ≠ 0)

instance (self : Framing) (method : Method) : Decidable (self.IsTunnel method) := by
  unfold IsTunnel
  cases self.status <;> infer_instance

instance (self : Framing) (method : Method) : Decidable (self.IsBare method) :=
  match h : self.status with
  | none => isFalse (by rintro ⟨-, status, hstatus, -⟩; simp [h] at hstatus)
  | some status =>
    decidable_of_iff (¬ self.IsTunnel method ∧
        (method = .head ∨ status < 200 ∨ status = 204 ∨ status = 304))
      (by simp [IsBare, h])

instance (self : Framing) (method : Method) : Decidable (self.IsEmpty method) := by
  unfold IsEmpty
  infer_instance

/-- The number of bytes that the message must carry, and `none` where any number may do. -/
def declared (self : Framing) (method : Method) : Option ℕ :=
  if self.IsTunnel method then none
  else if self.IsEmpty method then some 0
  else self.contentLength

theorem declared_of_isTunnel {self : Framing} {method : Method} (h : self.IsTunnel method) :
    self.declared method = none := by
  simp only [declared, if_pos h]

theorem declared_of_isEmpty {self : Framing} {method : Method} (h : self.IsEmpty method) :
    self.declared method = some 0 := by
  have htunnel : ¬ self.IsTunnel method := h.elim And.left And.left
  simp only [declared, if_neg htunnel, if_pos h]

theorem declared_of_not {self : Framing} {method : Method} (htunnel : ¬ self.IsTunnel method)
    (hempty : ¬ self.IsEmpty method) : self.declared method = self.contentLength := by
  simp only [declared, if_neg htunnel, if_neg hempty]

/-! ## The section opens its message -/

/-- The mode and the count of a section that does not contradict itself. -/
def opening (self : Framing) (method : Method) : Content × ℕ :=
  if self.IsTunnel method then (.tunnel, 0)
  else if self.IsBare method then (.empty, 0)
  else if self.IsEmpty method then (.exact, 0)
  else self.bounded

/-- A section is refused exactly when it contradicts itself. -/
theorem content_eq_ok_iff {self : Framing} {method : Method} {opened : Content × ℕ} :
    self.content method = .ok opened ↔
      ¬ self.Contradicts method ∧ opened = self.opening method := by
  cases hstatus : self.status with
  | none =>
    have hbare : ¬ self.IsBare method := by
      rintro ⟨-, status, h, -⟩
      simp [hstatus] at h
    have hempty : ¬ self.IsEmpty method := by
      rintro (h | ⟨-, h⟩)
      · exact hbare h
      · simp [hstatus] at h
    have hcontradicts : ¬ self.Contradicts method := by
      rintro ⟨-, status, length, h, -⟩
      simp [hstatus] at h
    by_cases hconnect : self.method = some .connect
    · have htunnel : self.IsTunnel method := by simpa [IsTunnel, hstatus] using hconnect
      simp [content, opening, hstatus, hconnect, htunnel, hcontradicts, eq_comm]
    · have htunnel : ¬ self.IsTunnel method := by simpa [IsTunnel, hstatus] using hconnect
      simp [content, opening, hstatus, hconnect, htunnel, hbare, hempty, hcontradicts, eq_comm]
  | some status =>
    have htunnel : self.IsTunnel method ↔ method = .connect ∧ 200 ≤ status ∧ status < 300 := by
      simp [IsTunnel, hstatus]
    have hbare : self.IsBare method ↔ ¬ self.IsTunnel method ∧
        (method = .head ∨ status < 200 ∨ status = 204 ∨ status = 304) := by
      simp [IsBare, hstatus]
    have hempty : self.IsEmpty method ↔ self.IsBare method ∨
        ¬ self.IsTunnel method ∧ status = 205 := by
      simp [IsEmpty, hstatus]
    have hcontradicts : self.Contradicts method ↔ ¬ self.IsTunnel method ∧ ∃ length,
        self.contentLength = some length ∧
          ((status < 200 ∨ status = 204) ∨ method ≠ .head ∧ status = 205 ∧ length ≠ 0) := by
      simp [Contradicts, hstatus]
    -- The cases are those of `ResponseContent.new`, in its order.
    rcases ResponseContent.new_cases method status with ⟨hnew, h₁⟩ | ⟨hnew, h₁, h₂⟩ |
      ⟨hnew, h₁, h₂, h₃⟩ | ⟨hnew, h₁, h₂, h₃, h₄⟩ | ⟨hnew, h₁, h₂, h₃, h₄⟩ <;>
      simp only [content, opening, hstatus, hnew]
    · have h := htunnel.mpr h₁
      have hclear : ¬ self.Contradicts method := fun hc => (hcontradicts.mp hc).1 h
      simp only [if_pos h, Except.ok.injEq, hclear, not_false_eq_true, true_and]
      exact eq_comm
    · have h := mt htunnel.mp h₁
      have hb := hbare.mpr ⟨h, .inr (or_assoc.mp (.inl h₂))⟩
      simp only [if_neg h, if_pos hb]
      cases hlength : self.contentLength with
      | none =>
        have hclear : ¬ self.Contradicts method := by simp [hcontradicts, hlength]
        simp only [Except.ok.injEq, hclear, not_false_eq_true, true_and]
        exact eq_comm
      | some length =>
        have hclash : self.Contradicts method := hcontradicts.mpr ⟨h, length, hlength, .inl h₂⟩
        simp [hclash]
    · have h := mt htunnel.mp h₁
      have hb := hbare.mpr ⟨h, h₃.imp_right fun h₃ => .inr (.inr h₃)⟩
      have hclear : ¬ self.Contradicts method := by
        rw [hcontradicts]
        rintro ⟨-, length, -, hstatus | ⟨hhead, h205, -⟩⟩
        · exact h₂ hstatus
        · exact h₃.elim hhead fun h304 => by omega
      simp only [if_neg h, if_pos hb, Except.ok.injEq, hclear, not_false_eq_true, true_and]
      exact eq_comm
    · have h := mt htunnel.mp h₁
      have hb : ¬ self.IsBare method := fun hb => (hbare.mp hb).2.elim (h₃ ∘ .inl) fun hs =>
        hs.elim (h₂ ∘ .inl) fun hs => hs.elim (h₂ ∘ .inr) (h₃ ∘ .inr)
      have he := hempty.mpr (.inr ⟨h, h₄⟩)
      simp only [if_neg h, if_neg hb, if_pos he]
      have hiff : self.Contradicts method ↔
          ∃ length, self.contentLength = some length ∧ length ≠ 0 := by
        rw [hcontradicts]
        exact ⟨fun ⟨_, length, hlength, hcase⟩ =>
            ⟨length, hlength, hcase.elim (fun hs => absurd hs h₂) fun hcase => hcase.2.2⟩,
          fun ⟨length, hlength, hne⟩ => ⟨h, length, hlength, .inr ⟨h₃ ∘ .inl, h₄, hne⟩⟩⟩
      rw [hiff]
      cases hlength : self.contentLength with
      | none => simp [eq_comm]
      | some length => by_cases hzero : length = 0 <;> simp [hzero, eq_comm]
    · have h := mt htunnel.mp h₁
      have hb : ¬ self.IsBare method := fun hb => (hbare.mp hb).2.elim (h₃ ∘ .inl) fun hs =>
        hs.elim (h₂ ∘ .inl) fun hs => hs.elim (h₂ ∘ .inr) (h₃ ∘ .inr)
      have he : ¬ self.IsEmpty method := fun he => (hempty.mp he).elim hb (h₄ ·.2)
      have hclear : ¬ self.Contradicts method := by
        rw [hcontradicts]
        rintro ⟨-, length, -, hstatus | ⟨-, h205, -⟩⟩
        · exact h₂ hstatus
        · exact h₄ h205
      simp only [if_neg h, if_neg hb, if_neg he, Except.ok.injEq, hclear, not_false_eq_true,
        true_and]
      exact eq_comm

end Framing

/-! ## The accounting of a message -/

/-- What a mode and a count say about a message that declares `declared` and of which `received`
bytes have come: the count is what is still missing. -/
def Tracks (declared : Option ℕ) (received : ℕ) (content : Content) (remaining : ℕ) : Prop :=
  match declared with
  | none => content = .unbounded ∨ content = .tunnel
  | some length =>
    received + remaining = length ∧ (content = .exact ∨ content = .empty ∧ length = 0)

/-- The bytes received are within the declared length, and make it up if the message ends. -/
def Fits (declared : Option ℕ) (received : ℕ) (finished : Bool) : Prop :=
  ∀ length, declared = some length → received ≤ length ∧ (finished = true → received = length)

/-- A section that does not contradict itself opens a message that tracks what it declares. -/
theorem Framing.tracks_opening (self : Framing) (method : Method) :
    Tracks (self.declared method) 0 (self.opening method).1 (self.opening method).2 := by
  unfold opening
  split
  · next h => simp [declared_of_isTunnel h, Tracks]
  split
  · next h => simp [declared_of_isEmpty (.inl h), Tracks]
  split
  · next h => simp [declared_of_isEmpty h, Tracks]
  · next htunnel _ hempty =>
    rw [declared_of_not htunnel hempty, bounded]
    cases self.contentLength <;> simp [Tracks]

theorem Framing.opening_noTrailers_iff (self : Framing) (method : Method) :
    ((self.opening method).1 = .empty ∨ (self.opening method).1 = .tunnel) ↔
      (self.IsBare method ∨ self.IsTunnel method) := by
  unfold opening
  split
  · next h => simp [h]
  split
  · next h => simp [h]
  split
  · next htunnel hbare _ => simp [htunnel, hbare]
  · next htunnel hbare _ =>
    simp only [htunnel, hbare, or_self, iff_false, bounded]
    cases self.contentLength <;> simp

namespace Tracks

variable {declared : Option ℕ} {received : ℕ} {content : Content} {remaining : ℕ}

theorem receive_iff (h : Tracks declared received content remaining) (bytes : ℕ)
    (finished : Bool) :
    (∃ next, content.receive remaining bytes finished = .ok next) ↔
      Fits declared (received + bytes) finished := by
  cases declared with
  | none => rcases h with rfl | rfl <;> simp [Content.receive, Fits]
  | some length =>
    obtain ⟨hsum, rfl | ⟨rfl, hzero⟩⟩ := h
    · simp only [Content.receive, Fits]
      split
      · simp
        omega
      · next hle =>
        split
        · next hshort =>
          simp only [Bool.and_eq_true, bne_iff_ne] at hshort
          simp [hshort.1]
          omega
        · next hshort =>
          simp only [Bool.and_eq_true, bne_iff_ne, not_and, not_not] at hshort
          simp
          exact ⟨by omega, fun hfinished => by have := hshort hfinished; omega⟩
    · simp only [Content.receive, Fits]
      split <;> simp <;> omega

theorem receive (h : Tracks declared received content remaining) {bytes : ℕ} {finished : Bool}
    {next : ℕ} (hnext : content.receive remaining bytes finished = .ok next) :
    Tracks declared (received + bytes) content next := by
  cases declared with
  | none => exact h
  | some length =>
    obtain ⟨hsum, rfl | ⟨rfl, hzero⟩⟩ := h
    · simp only [Content.receive] at hnext
      split at hnext
      · cases hnext
      split at hnext
      · cases hnext
      cases hnext
      exact ⟨by omega, .inl rfl⟩
    · simp only [Content.receive] at hnext
      split at hnext
      · cases hnext
        exact ⟨by omega, .inr ⟨rfl, hzero⟩⟩
      · cases hnext

/-- Trailers pass exactly when the message may have them and the declared length is made up. -/
theorem trailers_iff (h : Tracks declared received content remaining) :
    content.trailers remaining = .ok () ↔
      Fits declared received true ∧ content ≠ .empty ∧ content ≠ .tunnel := by
  cases declared with
  | none => rcases h with rfl | rfl <;> simp [Content.trailers, Fits]
  | some length =>
    obtain ⟨hsum, rfl | ⟨rfl, hzero⟩⟩ := h
    · simp only [Content.trailers, Fits]
      split <;> simp <;> omega
    · simp [Content.trailers]

theorem le (h : Tracks (some length) received content remaining) : received ≤ length := by
  obtain ⟨hsum, -⟩ := h
  omega

end Tracks

end Sark.Metadata
