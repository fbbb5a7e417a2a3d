import Sark.Http.Uri.Target

/-!
# The same authority

When two authorities are the same (`http/src/uri/pair.rs` and `http/src/uri/mod.rs`): registered
names up to the case of letters and up to the escapes of plain characters, literals by the address
that they denote, and ports as numbers, where the default port of the scheme stands for none.

* `sameName_iff`: names are compared unit by unit.
* `Authority.isSame_symm`, `Authority.isSame_trans`: sameness can be turned around and chained.
-/

namespace Sark.Uri

/-! ## Names -/

/-- Whether a byte needs no escape: a letter, a digit or one of `-._~`. -/
def isUnreserved (byte : UInt8) : Bool :=
  isAlphanumeric byte || byte ∈ ([0x2d, 0x2e, 0x5f, 0x7e] : Bytes)

/-- `Name::next`: the next unit of a name, and what follows it. -/
def nameNext : Bytes → Option (ℕ × Bytes)
  | [] => none
  | byte :: rest =>
    if byte = 0x25 then
      match rest with
      | first :: second :: rest => do
        let high ← hex first
        let low ← hex second
        let decoded := high <<< 4 ||| low
        if isUnreserved (UInt8.ofNat decoded) then
          some ((Http.toAsciiLowercase (UInt8.ofNat decoded)).toNat, rest)
        else some (0x100 ||| decoded, rest)
      | _ => none
    else some ((Http.toAsciiLowercase byte).toNat, rest)

theorem nameNext_length {value rest : Bytes} {unit : ℕ} (h : nameNext value = some (unit, rest)) :
    rest.length < value.length := by
  rw [nameNext.eq_def] at h
  split at h
  · exact absurd h (by simp)
  · split at h
    · split at h
      · simp only [Option.bind_eq_bind, Option.bind_eq_some_iff] at h
        obtain ⟨high, -, low, -, h⟩ := h
        split at h
        · obtain ⟨-, rfl⟩ := Prod.mk.inj (Option.some.inj h)
          simp only [List.length_cons]
          omega
        · obtain ⟨-, rfl⟩ := Prod.mk.inj (Option.some.inj h)
          simp only [List.length_cons]
          omega
      · exact absurd h (by simp)
    · obtain ⟨-, rfl⟩ := Prod.mk.inj (Option.some.inj h)
      simp

/-- The units of a name. -/
def units (value : Bytes) : List ℕ :=
  match hnext : nameNext value with
  | none => []
  | some next => next.1 :: units next.2
termination_by value.length
decreasing_by exact nameNext_length (show nameNext value = some (next.1, next.2) from hnext)

/-- The comparison of `Name`s: unit by unit, up to the first that is missing. -/
def sameName (left right : Bytes) : Bool :=
  match hleft : nameNext left with
  | none => (nameNext right).isNone
  | some next =>
    match nameNext right with
    | none => false
    | some other => next.1 = other.1 && sameName next.2 other.2
termination_by left.length
decreasing_by exact nameNext_length (show nameNext left = some (next.1, next.2) from hleft)

theorem sameName_iff {left right : Bytes} : sameName left right = true ↔ units left = units right := by
  induction hsize : left.length using Nat.strong_induction_on generalizing left right with
  | _ size ih =>
  obtain rfl := hsize
  rw [sameName, units.eq_def left, units.eq_def right]
  cases hleft : nameNext left with
  | none =>
    cases hright : nameNext right with
    | none => simp
    | some other => simp
  | some next =>
    cases hright : nameNext right with
    | none => simp
    | some other =>
      have hlength := nameNext_length (show nameNext left = some (next.1, next.2) from hleft)
      simp only [Bool.and_eq_true, decide_eq_true_eq, ih _ hlength rfl, List.cons.injEq]

/-! ## Hosts -/

/-- `pair::Literal`. -/
inductive Literal
  | v6 (groups : List ℕ)
  | future (value : Bytes)
  deriving DecidableEq, Repr

namespace Literal

/-- `Literal::parse`: what stands between the brackets. -/
def parse (value : Bytes) : Option Literal :=
  if value.length < 2 then none
  else
    let inner := (value.drop 1).take (value.length - 2)
    match Parser.v6 inner with
    | some groups => some (.v6 groups)
    | none => if isFuture inner then some (.future inner) else none

/-- The comparison of literals. -/
def same : Literal → Literal → Bool
  | .v6 left, .v6 right => left = right
  | .future left, .future right => Http.eqIgnoreAsciiCase left right
  | _, _ => false

end Literal

/-- `pair::is_same`. -/
def sameHost (left right : Bytes) : Bool :=
  if left.head? = some 0x5b then
    if right.head? = some 0x5b then
      match Literal.parse left, Literal.parse right with
      | some left, some right => left.same right
      | _, _ => false
    else false
  else if right.head? = some 0x5b then false
  else sameName left right

/-- What a host is compared by. -/
inductive HostKey
  | name (units : List ℕ)
  | v6 (groups : List ℕ)
  | future (value : Bytes)
  deriving DecidableEq, Repr

/-- The key of a literal: the letters of a future one are of no case. -/
def Literal.key : Literal → HostKey
  | .v6 groups => .v6 groups
  | .future value => .future (value.map Http.toAsciiLowercase)

theorem Literal.same_iff {left right : Literal} :
    left.same right = true ↔ left.key = right.key := by
  cases left with
  | v6 groups =>
    cases right with
    | v6 groups' => simp [same, key]
    | future value => simp [same, key]
  | future value =>
    cases right with
    | v6 groups => simp [same, key]
    | future value' => simp [same, key, Http.eqIgnoreAsciiCase]

/-- The key of a host, unless it is a malformed literal. -/
def hostKey (host : Bytes) : Option HostKey :=
  if host.head? = some 0x5b then (Literal.parse host).map Literal.key
  else some (.name (units host))

/-- Hosts are the same if they have the same key. -/
theorem sameHost_iff {left right : Bytes} :
    sameHost left right = true ↔ ∃ key, hostKey left = some key ∧ hostKey right = some key := by
  have hkeys {first second : HostKey} :
      (∃ key, some first = some key ∧ some second = some key) ↔ first = second := by
    constructor
    · rintro ⟨key, hfirst, hsecond⟩
      exact (Option.some.inj hfirst).trans (Option.some.inj hsecond).symm
    · rintro rfl
      exact ⟨first, rfl, rfl⟩
  rw [sameHost, hostKey, hostKey]
  by_cases hleft : left.head? = some 0x5b
  · by_cases hright : right.head? = some 0x5b
    · rw [if_pos hleft, if_pos hright, if_pos hleft, if_pos hright]
      cases Literal.parse left with
      | none => simp
      | some literal =>
        cases Literal.parse right with
        | none => simp
        | some other =>
          rw [Option.map_some, Option.map_some, hkeys]
          exact Literal.same_iff
    · rw [if_pos hleft, if_neg hright, if_pos hleft, if_neg hright]
      cases Literal.parse left with
      | none => simp
      | some literal =>
        rw [Option.map_some, hkeys]
        refine iff_of_false Bool.false_ne_true ?_
        cases literal <;> simp [Literal.key]
  · by_cases hright : right.head? = some 0x5b
    · rw [if_neg hleft, if_pos hright, if_neg hleft, if_pos hright]
      cases Literal.parse right with
      | none => simp
      | some literal =>
        rw [Option.map_some, hkeys]
        refine iff_of_false Bool.false_ne_true ?_
        cases literal <;> simp [Literal.key]
    · rw [if_neg hleft, if_neg hright, if_neg hleft, if_neg hright, sameName_iff, hkeys]
      simp

/-! ## Ports -/

/-- `uri::Scheme`. -/
inductive Scheme
  | none
  | http
  | https
  | other
  deriving DecidableEq, Repr

/-- `uri::normalized_port_span`: without leading zeros, and without the default port. -/
def normalizedPort (port : Option Bytes) (scheme : Scheme) : Option Bytes :=
  match port with
  | none => none
  | some port =>
    if port = [] then none
    else
      let start := (port.findIdx? (· ≠ 0x30)).getD (port.length - 1)
      let port := port.drop start
      if scheme = .http ∧ port = [0x38, 0x30] ∨ scheme = .https ∧ port = [0x34, 0x34, 0x33] then
        none
      else some port

namespace Authority

/-- `Authority::is_same`. -/
def isSame (self other : Authority) (scheme : Scheme) : Bool :=
  sameHost self.host other.host &&
    normalizedPort self.port scheme = normalizedPort other.port scheme

theorem isSame_iff {left right : Authority} {scheme : Scheme} :
    isSame left right scheme = true ↔
      (∃ key, hostKey left.host = some key ∧ hostKey right.host = some key) ∧
        normalizedPort left.port scheme = normalizedPort right.port scheme := by
  rw [isSame, Bool.and_eq_true, sameHost_iff, decide_eq_true_eq]

theorem isSame_symm {left right : Authority} {scheme : Scheme}
    (h : isSame left right scheme = true) : isSame right left scheme = true := by
  rw [isSame_iff] at h ⊢
  obtain ⟨⟨key, hleft, hright⟩, hport⟩ := h
  exact ⟨⟨key, hright, hleft⟩, hport.symm⟩

theorem isSame_trans {first second third : Authority} {scheme : Scheme}
    (h : isSame first second scheme = true) (h' : isSame second third scheme = true) :
    isSame first third scheme = true := by
  rw [isSame_iff] at h h' ⊢
  obtain ⟨⟨key, hfirst, hsecond⟩, hport⟩ := h
  obtain ⟨⟨key', hsecond', hthird⟩, hport'⟩ := h'
  obtain rfl := Option.some.inj (hsecond.symm.trans hsecond')
  exact ⟨⟨key, hfirst, hthird⟩, hport.trans hport'⟩

end Authority

end Sark.Uri
