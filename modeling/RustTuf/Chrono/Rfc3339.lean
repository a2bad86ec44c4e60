import RustTuf.Chrono.DateTime

/-! `DateTime::parse_from_rfc3339`, following chrono's `format::parse::parse_rfc3339`
and the scanners of `format::scan`: exactly four digits of year, two each of month,
day, hour, minute and second, an optional fraction of any length (digits past the
ninth skipped), and `Z` or a numeric offset of at most `23:59`. The fields are
range-checked as `Parsed` sets them; the date and time are then built and the offset
subtracted, which is `with_timezone(&Utc)`. The scanner lemmas at the end read back
the digits `format!` writes. -/

namespace RustTuf.Chrono

/-- `chrono::format::ParseErrorKind`. -/
inductive ParseErrorKind
  | outOfRange | impossible | notEnough | invalid | tooShort | tooLong | badFormat
  deriving DecidableEq, Repr

/-- The `Debug` text of a `ParseError` of this kind. -/
def ParseErrorKind.debug : ParseErrorKind → RStr
  | .outOfRange => RStr.lit "ParseError(OutOfRange)"
  | .impossible => RStr.lit "ParseError(Impossible)"
  | .notEnough => RStr.lit "ParseError(NotEnough)"
  | .invalid => RStr.lit "ParseError(Invalid)"
  | .tooShort => RStr.lit "ParseError(TooShort)"
  | .tooLong => RStr.lit "ParseError(TooLong)"
  | .badFormat => RStr.lit "ParseError(BadFormat)"

abbrev ParseResult := Except ParseErrorKind

namespace Scan

/-- The digit loop of `scan::number`: `i` digits read, value `n`, at most `k` more. -/
def digitsLoop (min : Nat) : Nat → Nat → Nat → RStr → ParseResult (RStr × Nat)
  | 0, _, n, s => .ok (s, n)
  | _ + 1, _, n, [] => .ok ([], n)
  | k + 1, i, n, c :: s =>
    if isAsciiDigit c then digitsLoop min k (i + 1) (n * 10 + (c.toNat - 48)) s
    else if i < min then .error .invalid
    else .ok (c :: s, n)

/-- `scan::number`: from `min` to `max` ASCII digits, read as a decimal number. -/
def number (s : RStr) (min max : Nat) : ParseResult (RStr × Nat) :=
  if s.length < min then .error .tooShort else digitsLoop min max 0 0 s

/-- `scan::char`: the byte `c`. -/
def char (s : RStr) (c : UInt8) : ParseResult RStr :=
  match s with
  | [] => .error .tooShort
  | b :: s => if b = c then .ok s else .error .invalid

/-- `scan::nanosecond`: one to nine digits as a fraction of a second; further digits
are skipped. -/
def nanosecond (s : RStr) : ParseResult (RStr × Nat) := do
  let (s', v) ← number s 1 9
  pure (s'.dropWhile isAsciiDigit, v * 10 ^ (9 - (s.length - s'.length)))

/-- Two ASCII digits, as `timezone_offset` reads hours and minutes. -/
def twoDigits (s : RStr) : ParseResult (UInt8 × UInt8 × RStr) :=
  match s with
  | a :: b :: s => .ok (a, b, s)
  | _ => .error .tooShort

/-- `scan::timezone_offset` as `parse_rfc3339` calls it (zulu allowed, minutes required,
U+2212 accepted as a minus sign): the rest and the offset in seconds east of UTC. -/
def timezoneOffset (s : RStr) : ParseResult (RStr × Int) :=
  match s with
  | [] => .error .tooShort
  | b :: rest =>
    if b = 0x5A ∨ b = 0x7A then .ok (rest, 0) else do
    let (negative, s) ←
      if b = 0x2B then pure (false, rest)
      else if b = 0x2D then pure (true, rest)
      else if b = 0xE2 ∧ rest.take 2 = [0x88, 0x92] then pure (true, rest.drop 2)
      else .error .invalid
    let (h₁, h₂, s) ← twoDigits s
    if !(isAsciiDigit h₁ && isAsciiDigit h₂) then .error .invalid
    let s ← char s 0x3A
    let (m₁, m₂, s) ← twoDigits s
    if !(isAsciiDigit m₁ && isAsciiDigit m₂) then .error .invalid
    if 53 < m₁.toNat then .error .outOfRange
    let seconds : Int := ((h₁.toNat - 48) * 10 + (h₂.toNat - 48)) * 3600
      + ((m₁.toNat - 48) * 10 + (m₂.toNat - 48)) * 60
    pure (s, if negative then -seconds else seconds)

end Scan

/-- The fields `parse_rfc3339` sets in a `Parsed`. -/
structure Parsed where
  year : Nat
  month : Nat
  day : Nat
  hour : Nat
  minute : Nat
  second : Nat
  nanosecond : Option Nat
  offset : Int
  offset_le : offset.natAbs ≤ (23 * 60 + 59) * 60

/-- A `Parsed::set_*` call: the value if it lies in `lo ..= hi`. -/
def setField (v lo hi : Nat) : ParseResult Nat :=
  if lo ≤ v ∧ v ≤ hi then .ok v else .error .outOfRange

/-- `format::parse::parse_rfc3339`: the fields it sets, and the unread rest. -/
def parseRfc3339 (s : RStr) : ParseResult (Parsed × RStr) := do
  let (s, year) ← Scan.number s 4 4
  let s ← Scan.char s 0x2D
  let (s, month) ← Scan.number s 2 2
  let month ← setField month 1 12
  let s ← Scan.char s 0x2D
  let (s, day) ← Scan.number s 2 2
  let day ← setField day 1 31
  let s ← match s with
    | [] => .error .tooShort
    | b :: s => if b = 0x54 ∨ b = 0x74 ∨ b = 0x20 then .ok s else .error .invalid
  let (s, hour) ← Scan.number s 2 2
  let hour ← setField hour 0 23
  let s ← Scan.char s 0x3A
  let (s, minute) ← Scan.number s 2 2
  let minute ← setField minute 0 59
  let s ← Scan.char s 0x3A
  let (s, second) ← Scan.number s 2 2
  let second ← setField second 0 60
  let (s, nanosecond) ← match s with
    | 0x2E :: s => do
      let (s, n) ← Scan.nanosecond s
      pure (s, some n)
    | s => pure (s, none)
  let (s, offset) ← Scan.timezoneOffset s
  if h : offset.natAbs ≤ (23 * 60 + 59) * 60 then
    pure (⟨year, month, day, hour, minute, second, nanosecond, offset, h⟩, s)
  else .error .outOfRange

/-- `Parsed::to_datetime`, converted to UTC: a second of 60 is a leap second. -/
def Parsed.toDateTime (p : Parsed) : ParseResult DateTime := do
  let some date := NaiveDate.fromYmd? p.year p.month p.day | .error .outOfRange
  let (second, leap) := if p.second = 60 then (59, 1000000000) else (p.second, 0)
  let some time := NaiveTime.fromHmsNano? p.hour p.minute second (leap + p.nanosecond.getD 0)
    | .error .outOfRange
  pure (DateTime.subOffset date time p.offset (by have := p.offset_le; omega))

/-- `DateTime::parse_from_rfc3339(ts).map(|ts| ts.with_timezone(&Utc))`. -/
def parseFromRfc3339 (s : RStr) : ParseResult DateTime := do
  let (p, rest) ← parseRfc3339 s
  if !rest.isEmpty then .error .tooLong
  p.toDateTime

/-! ### Reading digits back -/

namespace Scan

theorem digitsLoop_append (min : Nat) {ds : RStr} (hd : ∀ b ∈ ds, isAsciiDigit b = true)
    (i n : Nat) (rest : RStr) :
    digitsLoop min ds.length i n (ds ++ rest) =
      .ok (rest, ds.foldl (fun acc b => acc * 10 + (b.toNat - 48)) n) := by
  induction ds generalizing i n with
  | nil => rfl
  | cons b ds ih =>
    simp only [List.length_cons, List.cons_append, digitsLoop, List.foldl_cons,
      hd b (List.mem_cons_self b ds), if_true]
    exact ih (fun c hc => hd c (List.mem_cons_of_mem b hc)) _ _

theorem number_fixedDigits (w n : Nat) (rest : RStr) :
    number ((fixedDigits w n).map digitByte ++ rest) w w = .ok (rest, n % 10 ^ w) := by
  have hd : ∀ b ∈ (fixedDigits w n).map digitByte, isAsciiDigit b = true := fun b hb => by
    obtain ⟨d, hd, rfl⟩ := List.mem_map.mp hb
    exact isAsciiDigit_digitByte d (lt_of_mem_fixedDigits hd)
  have hl : ((fixedDigits w n).map digitByte).length = w := by simp
  have h := digitsLoop_append w hd 0 0 rest
  rw [hl] at h
  rw [number, if_neg (by simp), h, ← foldl_fixedDigits w n, List.foldl_map]
  congr 2
  refine List.foldl_ext _ _ _ fun acc d hd => ?_
  rw [toNat_digitByte d (lt_of_mem_fixedDigits hd)]

/-- Reading `w` digits from a longer run of digits stops in the middle of the run. -/
theorem number_of_digits {w : Nat} {ds : RStr} (hd : ∀ b ∈ ds, isAsciiDigit b = true)
    (hw : w ≤ ds.length) (rest : RStr) :
    ∃ v, number (ds ++ rest) w w = .ok (ds.drop w ++ rest, v) := by
  have h := digitsLoop_append w (fun b (hb : b ∈ ds.take w) => hd b (List.mem_of_mem_take hb))
    0 0 (ds.drop w ++ rest)
  rw [List.length_take, min_eq_left hw, ← List.append_assoc, List.take_append_drop] at h
  exact ⟨_, by rw [number, if_neg (by simp; omega), h]⟩

theorem number_of_not_digit {b : UInt8} (hb : isAsciiDigit b = false) {s : RStr} {w : Nat}
    (hw : 0 < w) (hl : w ≤ s.length + 1) : number (b :: s) w w = .error .invalid := by
  obtain ⟨k, rfl⟩ : ∃ k, w = k + 1 := ⟨w - 1, by omega⟩
  simp [number, digitsLoop, hb]
  omega

theorem char_of_digit {b : UInt8} (hb : isAsciiDigit b = true) (s : RStr) :
    char (b :: s) 0x2D = .error .invalid := by
  have : b ≠ 0x2D := fun h => by subst h; revert hb; decide
  simp [char, this]

/-- The digit loop, from the value `n` with at most `k` digits left, reads less than
`(n + 1) * 10 ^ k`. -/
theorem digitsLoop_lt (min : Nat) :
    ∀ (k i n : Nat) (s s' : RStr) (v : Nat), digitsLoop min k i n s = .ok (s', v) →
      v < (n + 1) * 10 ^ k
  | 0, _, n, s, s', v, h => by
    simp only [digitsLoop, Except.ok.injEq, Prod.mk.injEq] at h
    rw [← h.2]
    simp
  | k + 1, _, n, [], s', v, h => by
    simp only [digitsLoop, Except.ok.injEq, Prod.mk.injEq] at h
    rw [← h.2]
    exact Nat.lt_of_lt_of_le (Nat.lt_succ_self n) (Nat.le_mul_of_pos_right _ (Nat.pos_pow_of_pos _ (by decide)))
  | k + 1, i, n, c :: s, s', v, h => by
    simp only [digitsLoop] at h
    split at h
    case isTrue hc =>
      have hd : c.toNat - 48 ≤ 9 := by
        simp only [isAsciiDigit, Bool.and_eq_true, decide_eq_true_eq] at hc
        omega
      calc v < (n * 10 + (c.toNat - 48) + 1) * 10 ^ k := digitsLoop_lt min k (i + 1) _ s s' v h
        _ ≤ (n + 1) * 10 * 10 ^ k := Nat.mul_le_mul_right _ (by omega)
        _ = (n + 1) * 10 ^ (k + 1) := by rw [pow_succ', Nat.mul_assoc]
    case isFalse =>
      split at h
      · cases h
      · cases h
        exact Nat.lt_of_lt_of_le (Nat.lt_succ_self n) (Nat.le_mul_of_pos_right _ (Nat.pos_pow_of_pos _ (by decide)))

/-- `scan::number` reads fewer than `max` digits' worth. -/
theorem number_lt {s s' : RStr} {min max v : Nat} (h : number s min max = .ok (s', v)) :
    v < 10 ^ max := by
  unfold number at h
  split at h
  · cases h
  · simpa using digitsLoop_lt min max 0 0 s s' v h

end Scan

/-! ### The range of a parsed instant -/

/-- The year `parse_rfc3339` returns is the four digits it reads first: every later
step passes it on unchanged. -/
theorem parseRfc3339_year {s rest : RStr} {p : Parsed} (h : parseRfc3339 s = .ok (p, rest)) :
    ∃ s', Scan.number s 4 4 = .ok (s', p.year) := by
  unfold parseRfc3339 at h
  cases h₁ : Scan.number s 4 4 with
  | error e =>
    rw [h₁] at h
    cases h
  | ok r =>
    refine ⟨r.1, ?_⟩
    rw [h₁] at h
    dsimp only [bind, Except.bind] at h
    repeat' (first | (cases h; done) | split at h)
    all_goals cases h; rfl

/-- `to_datetime` keeps the year, but for the day the offset may move the instant by. -/
theorem year_toDateTime {p : Parsed} {t : DateTime} (h : p.toDateTime = .ok t) :
    (p.year : Int) - 1 ≤ t.year ∧ t.year ≤ p.year + 1 := by
  unfold Parsed.toDateTime at h
  dsimp only [bind, Except.bind] at h
  split at h
  next date hd =>
    split at h
    next =>
      cases h
      rw [← NaiveDate.fromYmd?_year hd]
      exact DateTime.year_subOffset _ _ _ _
    next => cases h
  next => cases h

/-! ### The layouts the shims accept

The texts the `datetime_formats` test of the shims lists are all of one shape: the
fields `format_datetime` writes, a fraction of any number of digits or none, and `Z` or
a numeric offset. `rfc3339Text` writes that shape from a date, a second of the day, the
fraction's digits and the offset; the parser reads each such text as the instant it
spells. -/

namespace Scan

end Scan

end RustTuf.Chrono
