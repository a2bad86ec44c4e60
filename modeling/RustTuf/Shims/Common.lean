import RustTuf.Chrono.Rfc3339
import RustTuf.Metadata.Basic

/-! The helpers at the top of the shims: the spec-version gate, and the expiry's
parsing and formatting. `format_datetime` writes `{:04}` for the year, which is four
digits only for the years `0 ..= 9999`, and RFC 3339 reads exactly four: those years
round-trip with their sub-second part dropped, and for every other year the text it
writes is rejected. -/

namespace RustTuf.Shims

open Chrono

variable {T : Types}

/-- `SPEC_VERSION`. -/
def specVersion : RStr := RStr.lit "1.0"

/-- `valid_spec_version`: `"1.0.0"`, or the literal `"1.0"` baked into old roots. -/
def validSpecVersion (other : RStr) : Bool :=
  other == RStr.lit "1.0" || other == RStr.lit "1.0.0"

/-- The checks each `try_into` starts with: the `_type` tag is the document's role, named
`what` in the error, and the spec version is accepted. -/
def checkHeader (role : Role) (what : String) (typ : Role) (specVersion : RStr) :
    Except (Error T) Unit := do
  if typ ≠ role then
    throw (.encoding (RStr.lit ("Attempted to decode " ++ what ++ " metadata labeled as ") ++
      typ.debug))
  if !validSpecVersion specVersion then
    throw (.encoding (RStr.lit "Unknown spec version " ++ specVersion))

@[simp] theorem checkHeader_specVersion (role : Role) (what : String) :
    checkHeader (T := T) role what role specVersion = .ok () := by
  cases role <;> rfl

/-- The checks pass exactly on the document's own tag and an accepted spec version. -/
theorem checkHeader_eq_ok_iff {role : Role} {what : String} {typ : Role} {version : RStr} :
    checkHeader (T := T) role what typ version = .ok () ↔
      typ = role ∧ validSpecVersion version = true := by
  unfold checkHeader
  by_cases h : typ = role <;> cases hv : validSpecVersion version <;> simp [h, hv]

/-- `parse_datetime`. -/
def parseDatetime (ts : RStr) : Except (Error T) DateTime :=
  match parseFromRfc3339 ts with
  | .ok t => .ok t
  | .error e => .error (.encoding (RStr.lit "Can't parse DateTime: " ++ e.debug))

/-- `format_datetime`: `{:04}-{:02}-{:02}T{:02}:{:02}:{:02}Z`. -/
def formatDatetime (ts : DateTime) : RStr :=
  fmtPadInt 4 ts.year ++ RStr.lit "-" ++ fmtPad 2 ts.month ++ RStr.lit "-" ++ fmtPad 2 ts.day ++
    RStr.lit "T" ++ fmtPad 2 ts.hour ++ RStr.lit ":" ++ fmtPad 2 ts.minute ++ RStr.lit ":" ++
    fmtPad 2 ts.second ++ RStr.lit "Z"

private theorem lit_dash : RStr.lit "-" = [0x2D] := rfl
private theorem lit_T : RStr.lit "T" = [0x54] := rfl
private theorem lit_colon : RStr.lit ":" = [0x3A] := rfl
private theorem lit_Z : RStr.lit "Z" = [0x5A] := rfl

theorem formatDatetime_of_digits {t : DateTime} {n : Nat} (hn : t.year = n) (hy : n < 10000) :
    formatDatetime t = (fixedDigits 4 n).map digitByte ++ 0x2D :: (fixedDigits 2 t.month).map
      digitByte ++ 0x2D :: (fixedDigits 2 t.day).map digitByte ++ 0x54 :: (fixedDigits 2 t.hour).map
      digitByte ++ 0x3A :: (fixedDigits 2 t.minute).map digitByte ++ 0x3A ::
      (fixedDigits 2 t.second).map digitByte ++ [0x5A] := by
  have := t.date.month_valid
  have := daysInMonth_le t.date.year t.date.month
  have := t.date.day_valid
  have := t.time.hour_lt
  have := t.time.minute_lt
  have := t.time.second_lt
  have h2 : ∀ k, k < 100 → fmtPad 2 k = (fixedDigits 2 k).map digitByte :=
    fun k hk => fmtPad_of_lt hk (by decide)
  simp only [formatDatetime, hn, fmtPadInt, fmtPad_of_lt (show n < 10 ^ 4 by simpa using hy)
    (by decide), DateTime.month, DateTime.day, DateTime.hour, DateTime.minute, DateTime.second,
    h2 _ (show t.date.month < 100 by omega), h2 _ (show t.date.day < 100 by omega),
    h2 _ (show t.time.hour < 100 by omega), h2 _ (show t.time.minute < 100 by omega),
    h2 _ (show t.time.second < 100 by omega), lit_dash, lit_T, lit_colon, lit_Z,
    List.append_assoc, List.singleton_append, List.cons_append, List.nil_append]

/-- `parse_rfc3339` reads back the fields of a text shaped as `format_datetime` writes. -/
theorem parseRfc3339_digits (y mo d h mi s : Nat) (hy : y < 10000) (hmo : 1 ≤ mo ∧ mo ≤ 12)
    (hd : 1 ≤ d ∧ d ≤ 31) (hh : h < 24) (hmi : mi < 60) (hs : s < 60) :
    parseRfc3339 ((fixedDigits 4 y).map digitByte ++ 0x2D :: (fixedDigits 2 mo).map digitByte ++
      0x2D :: (fixedDigits 2 d).map digitByte ++ 0x54 :: (fixedDigits 2 h).map digitByte ++
      0x3A :: (fixedDigits 2 mi).map digitByte ++ 0x3A :: (fixedDigits 2 s).map digitByte ++
      [0x5A]) = .ok (⟨y, mo, d, h, mi, s, none, 0, by decide⟩, []) := by
  have : y % 10000 = y := Nat.mod_eq_of_lt hy
  have : mo % 100 = mo := Nat.mod_eq_of_lt (by omega)
  have : d % 100 = d := Nat.mod_eq_of_lt (by omega)
  have : h % 100 = h := Nat.mod_eq_of_lt (by omega)
  have : mi % 100 = mi := Nat.mod_eq_of_lt (by omega)
  have : s % 100 = s := Nat.mod_eq_of_lt (by omega)
  have : h ≤ 23 := by omega
  have : mi ≤ 59 := by omega
  have : s ≤ 60 := by omega
  simp [parseRfc3339, Scan.number_fixedDigits, Nat.reducePow, bind, Except.bind, pure, Except.pure,
    Scan.char, setField, Scan.timezoneOffset, *]

/-- The fields of a UTC instant, offset zero, give the instant back without its fraction. -/
theorem toDateTime_fields (t : DateTime) {n : Nat} (hn : t.year = n) :
    Parsed.toDateTime ⟨n, t.month, t.day, t.hour, t.minute, t.second, none, 0, by decide⟩ =
      .ok t.truncSubsec := by
  have hs := t.time.second_lt
  have hdate : NaiveDate.fromYmd? (n : Int) t.month t.day = some t.date := by
    rw [← hn]; exact NaiveDate.fromYmd?_self t.date
  have htime : NaiveTime.fromHmsNano? t.hour t.minute t.second 0 =
      some ⟨t.time.secs, 0, t.time.secs_lt, by omega⟩ := by
    simp [NaiveTime.fromHmsNano?, DateTime.hour, DateTime.minute, DateTime.second,
      t.time.hour_lt, t.time.minute_lt, t.time.second_lt, NaiveTime.hms_eq]
  simp only [Parsed.toDateTime, hdate, if_neg (show t.second ≠ 60 by simp [DateTime.second]; omega),
    Nat.add_zero, Option.getD_none, htime]
  rw [DateTime.subOffset_zero]
  rfl

theorem parseRfc3339_of_year_ge {n : Nat} (hn : 10000 ≤ n) (rest : RStr) :
    parseRfc3339 (fmtPad 4 n ++ rest) = .error .invalid := by
  have hl := lt_length_fmtPad (w := 4) hn
  obtain ⟨v, hv⟩ := Scan.number_of_digits (fun b hb => isAsciiDigit_of_mem_fmtPad hb) hl.le rest
  obtain ⟨b, bs, hb⟩ : ∃ b bs, (fmtPad 4 n).drop 4 = b :: bs :=
    List.exists_cons_of_ne_nil (by simp; omega)
  have hbd : isAsciiDigit b = true :=
    isAsciiDigit_of_mem_fmtPad (List.mem_of_mem_drop (hb ▸ List.mem_cons_self b bs))
  simp [parseRfc3339, hv, hb, bind, Except.bind, Scan.char_of_digit hbd]

theorem parseRfc3339_of_sign (rest : RStr) (hl : 3 ≤ rest.length) :
    parseRfc3339 (0x2D :: rest) = .error .invalid := by
  simp [parseRfc3339, bind, Except.bind, Scan.number_of_not_digit (b := 0x2D) (by decide)
    (by decide : 0 < 4) (by omega : 4 ≤ rest.length + 1)]

/-- `format_datetime` writes nothing below the second. -/
@[simp] theorem formatDatetime_truncSubsec (t : DateTime) :
    formatDatetime t.truncSubsec = formatDatetime t := by
  simp [formatDatetime]

theorem parseDatetime_formatDatetime_of_mem {t : DateTime} (h : 0 ≤ t.year ∧ t.year ≤ 9999) :
    parseDatetime (T := T) (formatDatetime t) = .ok t.truncSubsec := by
  have hd := t.date.day_valid
  obtain ⟨n, hn⟩ : ∃ n : Nat, t.year = n := ⟨t.year.toNat, by omega⟩
  have hy : n < 10000 := by omega
  rw [formatDatetime_of_digits hn hy, parseDatetime, parseFromRfc3339,
    parseRfc3339_digits n t.month t.day t.hour t.minute t.second hy t.date.month_valid
      ⟨hd.1, le_trans hd.2 (daysInMonth_le _ _)⟩ t.time.hour_lt t.time.minute_lt t.time.second_lt]
  simp [toDateTime_fields t hn]

theorem parseDatetime_formatDatetime_of_not_mem {t : DateTime} (h : ¬ (0 ≤ t.year ∧ t.year ≤ 9999)) :
    parseDatetime (T := T) (formatDatetime t) =
      .error (.encoding (RStr.lit "Can't parse DateTime: " ++ ParseErrorKind.invalid.debug)) := by
  have hbad : parseRfc3339 (formatDatetime t) = .error .invalid := by
    rcases hy : t.year with n | n
    · rw [hy, Int.ofNat_eq_coe] at h
      simp only [formatDatetime, hy, fmtPadInt, List.append_assoc]
      exact parseRfc3339_of_year_ge (by omega) _
    · simp only [formatDatetime, hy, fmtPadInt, lit_dash, List.append_assoc, List.singleton_append]
      refine parseRfc3339_of_sign _ ?_
      have := le_length_fmtPad (4 - 1) (n + 1)
      simp only [List.append_eq, List.length_append]
      omega
  simp [parseDatetime, parseFromRfc3339, hbad]

/-- Text that `format_datetime` wrote and `parse_datetime` accepted came from a year in
`0 ..= 9999`. -/
theorem year_mem_of_parseDatetime_formatDatetime {t t' : DateTime}
    (h : parseDatetime (T := T) (formatDatetime t) = .ok t') : 0 ≤ t.year ∧ t.year ≤ 9999 := by
  by_contra hy
  rw [parseDatetime_formatDatetime_of_not_mem hy] at h
  cases h

/-- `parse_datetime` reads back what `format_datetime` writes exactly for the years
`0 ..= 9999`, with the sub-second part dropped; any other year is rejected. -/
theorem parseDatetime_formatDatetime (t : DateTime) :
    parseDatetime (T := T) (formatDatetime t) =
      if 0 ≤ t.year ∧ t.year ≤ 9999 then .ok t.truncSubsec
      else .error (.encoding (RStr.lit "Can't parse DateTime: " ++ ParseErrorKind.invalid.debug)) := by
  split
  case isTrue h => exact parseDatetime_formatDatetime_of_mem h
  case isFalse h => exact parseDatetime_formatDatetime_of_not_mem h

/-- The first instant of the year 10000, which `format_datetime` writes with five digits. -/
theorem parseDatetime_formatDatetime_year_ten_thousand :
    parseDatetime (T := Types.nat) (formatDatetime ⟨⟨10000, 1, 1, by decide, by decide⟩,
      ⟨0, 0, by decide, by decide⟩⟩) ≠ .ok ⟨⟨10000, 1, 1, by decide, by decide⟩,
      ⟨0, 0, by decide, by decide⟩⟩ := by
  rw [parseDatetime_formatDatetime_of_not_mem (by decide)]
  exact fun h => by cases h

/-- `parse_datetime` returns instants in the years `-1 ..= 10000`: it reads four digits
of year, and the offset, of less than a day, moves the instant into the year before or
after at most. -/
theorem parseDatetime_year {ts : RStr} {t : DateTime} (h : parseDatetime (T := T) ts = .ok t) :
    -1 ≤ t.year ∧ t.year ≤ 10000 := by
  unfold parseDatetime at h
  split at h
  next t' ht =>
    cases h
    unfold parseFromRfc3339 at ht
    obtain ⟨⟨p, rest⟩, hp, ht⟩ := except_bind_eq_ok.mp ht
    obtain ⟨s', hs⟩ := parseRfc3339_year hp
    have hy : p.year < 10000 := Scan.number_lt hs
    dsimp only at ht
    split at ht <;> simp only [except_pure, except_ok_bind, except_error_bind, reduceCtorEq] at ht
    have := year_toDateTime ht
    omega
  next => cases h

/-- The first instant of the year `0` one hour east of UTC, which is in the year `-1`. -/
def yearZeroEastOfUtc : RStr := RStr.lit "0000-01-01T00:00:00+01:00"

theorem parseDatetime_year_yearZeroEastOfUtc :
    parseDatetime (T := Types.nat) yearZeroEastOfUtc =
      .ok ⟨⟨-1, 12, 31, by decide, by decide⟩, ⟨82800, 0, by decide, by decide⟩⟩ ∧
    -1 ≤ (⟨⟨-1, 12, 31, by decide, by decide⟩, ⟨82800, 0, by decide, by decide⟩⟩ : DateTime).year ∧
    (⟨⟨-1, 12, 31, by decide, by decide⟩, ⟨82800, 0, by decide, by decide⟩⟩ : DateTime).year ≤
      10000 := by
  have h : parseDatetime (T := Types.nat) yearZeroEastOfUtc =
      .ok ⟨⟨-1, 12, 31, by decide, by decide⟩, ⟨82800, 0, by decide, by decide⟩⟩ := rfl
  exact ⟨h, parseDatetime_year h⟩

end RustTuf.Shims
