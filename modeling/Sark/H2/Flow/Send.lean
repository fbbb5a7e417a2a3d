import Sark.H2.Flow.Window

/-!
# Send windows

The send windows of an HTTP/2 connection and of its streams (`h2/src/flow.rs`). DATA is debited from
both windows at once, or reserved in both and accepted or cancelled later, when its stream may be
gone. The peer increases a window or adjusts the windows of all streams.

* `Sends.Conserved.step`: committed credit is what is available and what is reserved.
* `Sends.send_credit`: so it is after every run.
-/

namespace Sark.H2.Flow

/-- `flow::Reserved`. -/
structure Reserved (K : Type) where
  stream : K
  amount : ℕ
  deriving DecidableEq, Repr

/-- The send windows of a connection, the reservations that are neither accepted nor cancelled, and
the keys of all streams that were opened, none of which is used again. -/
structure Sends (K : Type) where
  conn : Window
  streams : K → Option Window
  reserved : List (Reserved K)
  opened : List K

/-- `Pair::available`. -/
def pairAvailable (conn stream : Window) : ℕ :=
  min conn.available stream.available

/-- The amount of `Pair::debit_up_to`. -/
def debitUpTo (conn stream : Window) (limit : ℕ) : ℕ :=
  (asI32 (min (pairAvailable conn stream) limit : ℕ)).toNat

/-- What happens to send windows. -/
inductive SendOp (K : Type)
  | openStream (key : K) (value : ℕ)
  | closeStream (key : K)
  | commit (key : K) (limit : ℕ)
  | reserve (key : K) (limit : ℕ)
  | accept (index : ℕ)
  | cancel (index : ℕ)
  | increaseConn (inc : Increment)
  | increaseStream (key : K) (inc : Increment)
  | adjustConn (delta : ℤ)
  | adjustStream (key : K) (delta : ℤ)

namespace Sends

variable {K : Type} [DecidableEq K]

/-- The windows of a connection without streams. -/
def start : Sends K :=
  ⟨.new, fun _ => none, [], []⟩

/-- The window of a stream is replaced, if it is there. -/
def update (self : Sends K) (key : K) (change : Window → Window) : K → Option Window :=
  Function.update self.streams key ((self.streams key).map change)

/-- A window that may reject its change, which leaves it as it is. -/
def orSame {ε : Type} (change : Window → Except ε Window) (window : Window) : Window :=
  (change window).toOption.getD window

/-- One step. -/
def step (self : Sends K) : SendOp K → Sends K
  | .openStream key value =>
    if key ∈ self.opened ∨ Window.max < value then self
    else
      { self with
        streams := Function.update self.streams key (some (.ofValue value))
        opened := key :: self.opened }
  | .closeStream key => { self with streams := Function.update self.streams key none }
  | .commit key limit =>
    match self.streams key with
    | none => self
    | some stream =>
      let amount := debitUpTo self.conn stream limit
      { self with conn := self.conn.debit amount, streams := self.update key (·.debit amount) }
  | .reserve key limit =>
    match self.streams key with
    | none => self
    | some stream =>
      let amount := debitUpTo self.conn stream limit
      { self with
        conn := self.conn.reserve amount
        streams := self.update key (·.reserve amount)
        reserved := ⟨key, amount⟩ :: self.reserved }
  | .accept index =>
    match self.reserved[index]? with
    | none => self
    | some reserved =>
      { self with
        conn := self.conn.acceptOne reserved.amount
        streams := self.update reserved.stream (·.acceptOne reserved.amount)
        reserved := self.reserved.eraseIdx index }
  | .cancel index =>
    match self.reserved[index]? with
    | none => self
    | some reserved =>
      { self with
        conn := self.conn.cancelOne reserved.amount
        streams := self.update reserved.stream (·.cancelOne reserved.amount)
        reserved := self.reserved.eraseIdx index }
  | .increaseConn inc => { self with conn := orSame (·.increase inc) self.conn }
  | .increaseStream key inc => { self with streams := self.update key (orSame (·.increase inc)) }
  | .adjustConn delta => { self with conn := orSame (·.adjust delta) self.conn }
  | .adjustStream key delta => { self with streams := self.update key (orSame (·.adjust delta)) }

/-- A run from the start. -/
def run (ops : List (SendOp K)) : Sends K :=
  ops.foldl step start

/-! ## What is reserved -/

/-- How much is reserved of the reservations that a window has a part in. -/
def owed (part : Reserved K → Bool) (reserved : List (Reserved K)) : ℕ :=
  ((reserved.filter part).map Reserved.amount).sum

/-- All reservations are of the connection. -/
def ofConn : Reserved K → Bool :=
  fun _ => true

/-- The reservations of a stream. -/
def ofStream (key : K) : Reserved K → Bool :=
  fun reserved => reserved.stream = key

section Owed

variable {part : Reserved K → Bool} {reserved : List (Reserved K)} {found : Reserved K} {index : ℕ}

omit [DecidableEq K] in
theorem owed_cons (found : Reserved K) (reserved : List (Reserved K)) :
    owed part (found :: reserved) =
      (if part found then found.amount else 0) + owed part reserved := by
  rw [owed, owed, List.filter_cons]
  split_ifs
  · rw [List.map_cons, List.sum_cons]
  · rw [Nat.zero_add]

omit [DecidableEq K] in
theorem owed_eraseIdx (h : reserved[index]? = some found) :
    owed part reserved =
      (if part found then found.amount else 0) + owed part (reserved.eraseIdx index) := by
  obtain ⟨hindex, hfound⟩ := List.getElem?_eq_some_iff.mp h
  have hperm := List.getElem_cons_eraseIdx_perm hindex
  rw [hfound] at hperm
  rw [← owed_cons]
  exact (((hperm.filter part).map Reserved.amount).sum_eq).symm

end Owed

/-! ## Conservation -/

/-- Every window commits what is available and what is reserved of it. -/
structure Conserved (sends : Sends K) : Prop where
  conn : sends.conn.Holds (owed ofConn sends.reserved)
  streams : ∀ key window, sends.streams key = some window →
    window.Holds (owed (ofStream key) sends.reserved)
  opened : ∀ key window, sends.streams key = some window → key ∈ sends.opened
  reserved : ∀ found ∈ sends.reserved, found.stream ∈ sends.opened

theorem conserved_start : (start : Sends K).Conserved where
  conn := Window.holds_ofValue (by decide) (by decide)
  streams _ _ h := absurd h (by simp [start])
  opened _ _ h := absurd h (by simp [start])
  reserved _ h := absurd h (by simp [start])

section Step

variable {sends : Sends K} {key : K} {change : Window → Window} {reserved : List (Reserved K)}

theorem update_eq_some {other : K} {window : Window}
    (h : sends.update key change other = some window) :
    (other = key ∧ ∃ before, sends.streams key = some before ∧ window = change before) ∨
      (other ≠ key ∧ sends.streams other = some window) := by
  rw [update] at h
  by_cases heq : other = key
  · subst heq
    rw [Function.update_self] at h
    obtain ⟨before, hbefore, rfl⟩ := Option.map_eq_some_iff.mp h
    exact .inl ⟨rfl, before, hbefore, rfl⟩
  · rw [Function.update_of_ne heq] at h
    exact .inr ⟨heq, h⟩

/-- A change of one stream that keeps its window, and leaves alone what is reserved of the
others. -/
theorem Conserved.update (h : sends.Conserved)
    (hchange : ∀ window, sends.streams key = some window →
      (change window).Holds (owed (ofStream key) reserved))
    (hother : ∀ other, other ≠ key →
      owed (ofStream other) reserved = owed (ofStream other) sends.reserved) :
    (∀ other window, sends.update key change other = some window →
        window.Holds (owed (ofStream other) reserved)) ∧
      ∀ other window, sends.update key change other = some window → other ∈ sends.opened := by
  refine ⟨fun other window hwindow => ?_, fun other window hwindow => ?_⟩
  · rcases update_eq_some hwindow with ⟨rfl, before, hbefore, rfl⟩ | ⟨hne, hwindow⟩
    · exact hchange before hbefore
    · rw [hother other hne]
      exact h.streams other window hwindow
  · rcases update_eq_some hwindow with ⟨rfl, before, hbefore, rfl⟩ | ⟨hne, hwindow⟩
    · exact h.opened other before hbefore
    · exact h.opened other window hwindow

theorem holds_orSame {ε : Type} {window : Window} {owing : ℕ} {change : Window → Except ε Window}
    (h : window.Holds owing)
    (hchange : ∀ next, change window = .ok next → next.Holds owing) :
    (orSame change window).Holds owing := by
  rw [orSame]
  cases hresult : change window with
  | error cause => exact h
  | ok next => exact hchange next hresult

theorem holds_increase {window next : Window} {owing : ℕ} {inc : Increment}
    (h : window.Holds owing) (hok : window.increase inc = .ok next) : next.Holds owing := by
  rcases h.increase inc with ⟨herror, -⟩ | ⟨found, hfound, hholds, -⟩
  · exact absurd (hok.symm.trans herror) (by simp)
  · obtain rfl := Except.ok.inj (hok.symm.trans hfound)
    exact hholds

theorem holds_adjust {window next : Window} {owing : ℕ} {delta : ℤ}
    (h : window.Holds owing) (hok : window.adjust delta = .ok next) : next.Holds owing := by
  rcases h.adjust delta with ⟨herror, -⟩ | ⟨found, hfound, hholds, -⟩
  · exact absurd (hok.symm.trans herror) (by simp)
  · obtain rfl := Except.ok.inj (hok.symm.trans hfound)
    exact hholds

theorem debitUpTo_eq {conn : Window} {owing : ℕ} (h : conn.Holds owing) (stream : Window)
    (limit : ℕ) : debitUpTo conn stream limit = min (pairAvailable conn stream) limit := by
  have hmax := h.available_le_max
  have hle : pairAvailable conn stream ≤ conn.available := Nat.min_le_left _ _
  have hword : Window.max = 2 ^ 31 - 1 := rfl
  rw [debitUpTo, asI32_of_fits (by omega) (by omega), Int.toNat_natCast]

theorem debitUpTo_le {conn : Window} {owing : ℕ} (h : conn.Holds owing) (stream : Window)
    (limit : ℕ) : debitUpTo conn stream limit ≤ conn.available ∧
      debitUpTo conn stream limit ≤ stream.available ∧ debitUpTo conn stream limit ≤ limit := by
  rw [debitUpTo_eq h, pairAvailable]
  omega

theorem Conserved.commit (h : sends.Conserved) (key : K) (limit : ℕ) :
    (sends.step (.commit key limit)).Conserved := by
  rw [step]
  split
  next => exact h
  next stream hstream =>
    obtain ⟨hconn, hle, -⟩ := debitUpTo_le h.conn stream limit
    generalize debitUpTo sends.conn stream limit = amount at hconn hle
    have hchange : ∀ window, sends.streams key = some window →
        (window.debit amount).Holds (owed (ofStream key) sends.reserved) := by
      intro window hwindow
      obtain rfl := Option.some.inj (hstream.symm.trans hwindow)
      exact ((h.streams key stream hstream).debit hle).1
    obtain ⟨hstreams, hopened⟩ := h.update hchange fun _ _ => rfl
    exact ⟨(h.conn.debit hconn).1, hstreams, hopened, h.reserved⟩

/-- Credit that is reserved is owed to both windows. -/
theorem Conserved.reserve (h : sends.Conserved) (key : K) (limit : ℕ) :
    (sends.step (.reserve key limit)).Conserved := by
  rw [step]
  split
  next => exact h
  next stream hstream =>
    obtain ⟨hconn, hle, -⟩ := debitUpTo_le h.conn stream limit
    generalize debitUpTo sends.conn stream limit = amount at hconn hle
    have howed : ∀ part : Reserved K → Bool, owed part (⟨key, amount⟩ :: sends.reserved) =
        owed part sends.reserved + if part ⟨key, amount⟩ then amount else 0 := fun part => by
      rw [owed_cons, Nat.add_comm]
    have hself : ofStream key (⟨key, amount⟩ : Reserved K) = true := decide_eq_true rfl
    have hchange : ∀ window, sends.streams key = some window →
        (window.reserve amount).Holds (owed (ofStream key) (⟨key, amount⟩ :: sends.reserved)) := by
      intro window hwindow
      obtain rfl := Option.some.inj (hstream.symm.trans hwindow)
      rw [howed, if_pos hself]
      exact ((h.streams key stream hstream).reserve hle).1
    have hother : ∀ other, other ≠ key →
        owed (ofStream other) (⟨key, amount⟩ :: sends.reserved) =
          owed (ofStream other) sends.reserved := by
      intro other hne
      have hpart : ofStream other (⟨key, amount⟩ : Reserved K) ≠ true := by
        rw [ofStream, ne_eq, decide_eq_true_iff]
        exact hne.symm
      rw [howed, if_neg hpart, Nat.add_zero]
    obtain ⟨hstreams, hopened⟩ := h.update hchange hother
    refine ⟨?_, hstreams, hopened,
      List.forall_mem_cons.mpr ⟨h.opened key stream hstream, h.reserved⟩⟩
    have hall : ofConn (⟨key, amount⟩ : Reserved K) = true := rfl
    show (sends.conn.reserve amount).Holds (owed ofConn (⟨key, amount⟩ :: sends.reserved))
    rw [howed, if_pos hall]
    exact (h.conn.reserve hconn).1

/-- Credit that is accepted or cancelled is owed no more. -/
theorem Conserved.settle (h : sends.Conserved) {index : ℕ} {found : Reserved K}
    (hfound : sends.reserved[index]? = some found) {settle : Window → ℕ → Window}
    (hsettle : ∀ {window : Window} {owing amount : ℕ}, window.Holds owing → amount ≤ owing →
      (settle window amount).Holds (owing - amount)) :
    (⟨settle sends.conn found.amount, sends.update found.stream (settle · found.amount),
      sends.reserved.eraseIdx index, sends.opened⟩ : Sends K).Conserved := by
  have howed := fun part : Reserved K → Bool =>
    @owed_eraseIdx K part sends.reserved found index hfound
  have hself : ofStream found.stream found = true := decide_eq_true rfl
  have hchange : ∀ window, sends.streams found.stream = some window →
      (settle window found.amount).Holds
        (owed (ofStream found.stream) (sends.reserved.eraseIdx index)) := by
    intro window hwindow
    have hholds := h.streams found.stream window hwindow
    rw [howed, if_pos hself] at hholds
    have hnext := hsettle hholds (Nat.le_add_right _ _)
    rwa [Nat.add_sub_cancel_left] at hnext
  have hother : ∀ other, other ≠ found.stream →
      owed (ofStream other) (sends.reserved.eraseIdx index) =
        owed (ofStream other) sends.reserved := by
    intro other hne
    have hpart : ofStream other found ≠ true := by
      rw [ofStream, ne_eq, decide_eq_true_iff]
      exact hne.symm
    rw [howed (ofStream other), if_neg hpart, Nat.zero_add]
  obtain ⟨hstreams, hopened⟩ := h.update hchange hother
  refine ⟨?_, hstreams, hopened, fun other hother =>
    h.reserved other (List.mem_of_mem_eraseIdx hother)⟩
  have hall : ofConn found = true := rfl
  have hconn := h.conn
  rw [howed ofConn, if_pos hall] at hconn
  have hnext := hsettle hconn (Nat.le_add_right _ _)
  rwa [Nat.add_sub_cancel_left] at hnext

theorem Conserved.openStream (h : sends.Conserved) (key : K) (value : ℕ) :
    (sends.step (.openStream key value)).Conserved := by
  rw [step]
  split
  next => exact h
  next hfresh =>
    obtain ⟨hnew, hvalue⟩ := not_or.mp hfresh
    have hnone : owed (ofStream key) sends.reserved = 0 := by
      have hall : sends.reserved.filter (ofStream key) = [] := by
        refine List.filter_eq_nil_iff.mpr fun found hfound hkey => ?_
        rw [ofStream, decide_eq_true_iff] at hkey
        exact hnew (hkey ▸ h.reserved found hfound)
      rw [owed, hall]
      rfl
    have hold : ∀ {other : K}, other ≠ key →
        Function.update sends.streams key (some (.ofValue value)) other = sends.streams other :=
      fun hne => Function.update_of_ne hne _ _
    refine ⟨h.conn, fun other window hwindow => ?_, fun other window hwindow => ?_,
      fun found hfound => List.mem_cons_of_mem key (h.reserved found hfound)⟩
    · by_cases heq : other = key
      · subst heq
        have hself : Function.update sends.streams other (some (.ofValue value)) other =
            some window := hwindow
        rw [Function.update_self] at hself
        obtain rfl := Option.some.inj hself
        rw [hnone]
        exact Window.holds_ofValue (by omega) (Int.not_lt.mp hvalue)
      · exact h.streams other window ((hold heq).symm.trans hwindow)
    · by_cases heq : other = key
      · rw [heq]
        exact List.mem_cons_self
      · exact List.mem_cons_of_mem key
          (h.opened other window ((hold heq).symm.trans hwindow))

theorem Conserved.closeStream (h : sends.Conserved) (key : K) :
    (sends.step (.closeStream key)).Conserved := by
  have hleft : ∀ other window, Function.update sends.streams key none other = some window →
      sends.streams other = some window := by
    intro other window hwindow
    by_cases heq : other = key
    · rw [heq, Function.update_self] at hwindow
      exact absurd hwindow (by simp)
    · rwa [Function.update_of_ne heq] at hwindow
  exact ⟨h.conn, fun other window hwindow => h.streams other window (hleft other window hwindow),
    fun other window hwindow => h.opened other window (hleft other window hwindow), h.reserved⟩

theorem Conserved.orSameConn (h : sends.Conserved) {ε : Type} {change : Window → Except ε Window}
    (hchange : ∀ {window next : Window} {owing : ℕ}, window.Holds owing →
      change window = .ok next → next.Holds owing) :
    ({ sends with conn := orSame change sends.conn } : Sends K).Conserved :=
  ⟨holds_orSame h.conn fun _ => hchange h.conn, h.streams, h.opened, h.reserved⟩

theorem Conserved.orSameStream (h : sends.Conserved) (key : K) {ε : Type}
    {change : Window → Except ε Window}
    (hchange : ∀ {window next : Window} {owing : ℕ}, window.Holds owing →
      change window = .ok next → next.Holds owing) :
    ({ sends with streams := sends.update key (orSame change) } : Sends K).Conserved := by
  obtain ⟨hstreams, hopened⟩ := h.update (fun window hwindow =>
    have hholds := h.streams key window hwindow
    holds_orSame hholds fun _ => hchange hholds) fun _ _ => rfl
  exact ⟨h.conn, hstreams, hopened, h.reserved⟩

theorem Conserved.step (h : sends.Conserved) (op : SendOp K) : (sends.step op).Conserved := by
  cases op with
  | openStream key value => exact h.openStream key value
  | closeStream key => exact h.closeStream key
  | commit key limit => exact h.commit key limit
  | reserve key limit => exact h.reserve key limit
  | accept index =>
    rw [Sends.step]
    split
    next => exact h
    next found hfound => exact h.settle hfound fun hholds hle => (hholds.acceptOne hle).1
  | cancel index =>
    rw [Sends.step]
    split
    next => exact h
    next found hfound => exact h.settle hfound fun hholds hle => (hholds.cancelOne hle).1
  | increaseConn inc => exact h.orSameConn holds_increase
  | increaseStream key inc => exact h.orSameStream key holds_increase
  | adjustConn delta => exact h.orSameConn holds_adjust
  | adjustStream key delta => exact h.orSameStream key holds_adjust

theorem conserved_run (ops : List (SendOp K)) : (run ops).Conserved := by
  induction ops using List.reverseRecOn with
  | nil => exact conserved_start
  | append_singleton ops op ih =>
    rw [run, List.foldl_append]
    exact ih.step op

end Step

/-! ## Main results -/

variable {sends : Sends K} {key : K} {window : Window}

/-- What a send or a reservation takes of a window that it takes an amount of: not more than is
available, so that the window is not driven below zero. -/
structure Takes (window : Window) (amount : ℕ) : Prop where
  le_available : amount ≤ window.available
  debit_value : (window.debit amount).value = window.value - amount
  reserve_value : (window.reserve amount).value = window.value - amount
  nonneg : 0 ≤ window.value → 0 ≤ window.value - amount
  nonneg_of_pos : 0 < amount → 0 ≤ window.value - amount

theorem takes_of_le {owing amount : ℕ} (h : window.Holds owing)
    (hamount : amount ≤ window.available) : Takes window amount where
  le_available := hamount
  debit_value := (h.debit hamount).2
  reserve_value := (h.reserve hamount).2
  nonneg := (Window.sub_fits hamount h.low).2
  nonneg_of_pos hpos := by
    have havailable := Window.available_le (hpos.trans_le hamount)
    omega

theorem orSame_of_error {ε : Type} {change : Window → Except ε Window} {cause : ε}
    (h : change window = .error cause) : orSame change window = window := by
  rw [orSame, h]
  rfl

theorem update_of_error {ε : Type} {change : Window → Except ε Window} {cause : ε}
    (hwindow : sends.streams key = some window) (h : change window = .error cause) :
    ({ sends with streams := sends.update key (orSame change) } : Sends K) = sends := by
  have hsame : sends.update key (orSame change) = sends.streams := by
    rw [update, hwindow, Option.map_some, orSame_of_error h, ← hwindow, Function.update_eq_self]
  rw [hsame]

/-- After every run, on the connection and on every stream, what is committed is what is available
and what is reserved, and both fit 32 bits; a send or a reservation takes no more than is available
in both windows; and an increase or an adjustment that is rejected changes nothing. -/
theorem send_credit (ops : List (SendOp K)) :
    (run ops).conn.Holds (owed ofConn (run ops).reserved) ∧
    (∀ key window, (run ops).streams key = some window →
      window.Holds (owed (ofStream key) (run ops).reserved) ∧
        ∀ limit, debitUpTo (run ops).conn window limit ≤ limit ∧
          Takes (run ops).conn (debitUpTo (run ops).conn window limit) ∧
          Takes window (debitUpTo (run ops).conn window limit)) ∧
    (∀ inc cause, (run ops).conn.increase inc = .error cause →
      (run ops).step (.increaseConn inc) = run ops) ∧
    (∀ delta cause, (run ops).conn.adjust delta = .error cause →
      (run ops).step (.adjustConn delta) = run ops) ∧
    ∀ key window, (run ops).streams key = some window →
      (∀ inc cause, window.increase inc = .error cause →
        (run ops).step (.increaseStream key inc) = run ops) ∧
      ∀ delta cause, window.adjust delta = .error cause →
        (run ops).step (.adjustStream key delta) = run ops := by
  have h := conserved_run ops
  generalize run ops = sends at h ⊢
  refine ⟨h.conn, fun key window hwindow => ⟨h.streams key window hwindow, fun limit => ?_⟩,
    fun inc cause herror => ?_, fun delta cause herror => ?_, fun key window hwindow =>
      ⟨fun inc cause herror => update_of_error hwindow herror,
        fun delta cause herror => update_of_error hwindow herror⟩⟩
  · obtain ⟨hconn, hstream, hlimit⟩ := debitUpTo_le h.conn window limit
    exact ⟨hlimit, takes_of_le h.conn hconn, takes_of_le (h.streams key window hwindow) hstream⟩
  · show ({ sends with conn := orSame (·.increase inc) sends.conn } : Sends K) = sends
    rw [orSame_of_error herror]
  · show ({ sends with conn := orSame (·.adjust delta) sends.conn } : Sends K) = sends
    rw [orSame_of_error herror]

/-- A stream whose window is below zero, after a reservation and a change of the initial window. -/
theorem send_credit_below_zero :
    (run [.openStream 1 10, .reserve 1 7, .adjustStream 1 (-5)]).streams 1 = some ⟨-2, 5⟩ ∧
      Window.Holds ⟨-2, 5⟩ (owed (ofStream 1)
        (run [.openStream 1 10, .reserve 1 7, .adjustStream 1 (-5)]).reserved) :=
  ⟨by decide +kernel, ((send_credit [.openStream 1 10, .reserve 1 7, .adjustStream 1 (-5)]).2.1 1
    ⟨-2, 5⟩ (by decide +kernel)).1⟩

end Sends

end Sark.H2.Flow
