import Mathlib.Algebra.Group.Nat.Basic
import Mathlib.Data.List.Lex

/-! Rust strings as the shims handle them. A `String` is its UTF-8 bytes and
compares byte by byte, as `Ord for str` does. The operations the shims call on
strings (`len`, `ends_with`, `split_at` with its char-boundary check) and the
zero-padded integer fields of `format!` are defined on those bytes. -/

namespace RustTuf

/-- Bytes compare as unsigned numbers, as `Ord for u8` does. -/
instance instLinearOrderUInt8 : LinearOrder UInt8 where
  le_refl a := Nat.le_refl a.toNat
  le_trans _ _ _ := Nat.le_trans
  le_antisymm _ _ h₁ h₂ := UInt8.eq_of_val_eq (Fin.le_antisymm h₁ h₂)
  le_total a b := Nat.le_total a.toNat b.toNat
  lt_iff_le_not_le _ _ := Nat.lt_iff_le_not_le
  decidableLE := inferInstance

/-- A Rust `String`: its UTF-8 bytes, ordered lexicographically. -/
abbrev RStr := List UInt8

/-- The byte-wise order of strings, with the equality test of lists, so that a map keyed
by strings decides its keys the same way whether it is read as sorted or not. -/
instance : LinearOrder RStr :=
  { (inferInstance : LinearOrder (List UInt8)) with
    decidableEq := instDecidableEqList
    compare := fun a b => compareOfLessAndEq a b
    compare_eq_compareOfLessAndEq := fun _ _ => rfl }

namespace RStr

/-- The bytes of a string literal. -/
def lit (s : String) : RStr := s.data.flatMap String.utf8EncodeChar

/-- `str::ends_with`. -/
def endsWith (s suffix : RStr) : Bool := suffix.isSuffixOf s

/-- `str::is_char_boundary`: the start, the end, or a byte that does not continue a
multi-byte sequence (continuation bytes are `0x80 ..= 0xBF`). -/
def isCharBoundary (s : RStr) (i : Nat) : Bool :=
  i == 0 || match s.get? i with
    | none => i == s.length
    | some b => b < 0x80 || 0xC0 ≤ b

/-- `str::split_at`, which panics (`none`) unless `mid` is a char boundary. -/
def splitAt (s : RStr) (mid : Nat) : Option (RStr × RStr) :=
  if s.isCharBoundary mid then some (s.take mid, s.drop mid) else none

theorem endsWith_iff (s suffix : RStr) : s.endsWith suffix ↔ suffix <:+ s := by
  simp [endsWith, List.isSuffixOf_iff_suffix]

theorem endsWith_append (s suffix : RStr) : (s ++ suffix).endsWith suffix := by
  simp [endsWith_iff, List.suffix_append]

/-- An ASCII byte after the prefix makes the prefix's end a char boundary. -/
theorem isCharBoundary_append (s t : RStr) (b : UInt8) (hb : b < 0x80) :
    (s ++ b :: t).isCharBoundary s.length := by
  have h : (s ++ b :: t).get? s.length = some b := by
    simp [List.get?_eq_getElem?, List.getElem_append_right]
  rw [isCharBoundary, h]
  simp [hb]

theorem splitAt_append (s t : RStr) (b : UInt8) (hb : b < 0x80) :
    (s ++ b :: t).splitAt s.length = some (s, b :: t) := by
  simp [splitAt, isCharBoundary_append s t b hb]

end RStr

/-! ### Decimal digits -/

/-- `u8::is_ascii_digit`. -/
def isAsciiDigit (b : UInt8) : Bool := 48 ≤ b.toNat && b.toNat ≤ 57

/-- The ASCII byte of a decimal digit. -/
def digitByte (d : Nat) : UInt8 := (48 + d).toUInt8

theorem isAsciiDigit_digitByte : ∀ d, d < 10 → isAsciiDigit (digitByte d) = true := by decide

theorem toNat_digitByte : ∀ d, d < 10 → (digitByte d).toNat - 48 = d := by decide

/-- The last `w` decimal digits of `n`, most significant first. -/
def fixedDigits : Nat → Nat → List Nat
  | 0, _ => []
  | w + 1, n => fixedDigits w (n / 10) ++ [n % 10]

/-- The number of decimal digits of `n`, one for zero. -/
def numDigits (n : Nat) : Nat := go n n
where
  go : Nat → Nat → Nat
  | 0, _ => 1
  | fuel + 1, n => if n < 10 then 1 else go fuel (n / 10) + 1

/-- `format!("{:0w}", n)` for an unsigned integer: all its decimal digits, padded on
the left with zeros to width `w`. -/
def fmtPad (w n : Nat) : RStr := (fixedDigits (max w (numDigits n)) n).map digitByte

/-- `format!("{:0w}", n)` for a signed integer: the sign counts toward the width. -/
def fmtPadInt (w : Nat) : Int → RStr
  | .ofNat n => fmtPad w n
  | .negSucc n => RStr.lit "-" ++ fmtPad (w - 1) (n + 1)

@[simp] theorem length_fixedDigits (w n : Nat) : (fixedDigits w n).length = w := by
  induction w generalizing n <;> simp [fixedDigits, *]

theorem lt_of_mem_fixedDigits {w n d : Nat} (h : d ∈ fixedDigits w n) : d < 10 := by
  induction w generalizing n with
  | zero => simp [fixedDigits] at h
  | succ w ih =>
    simp only [fixedDigits, List.mem_append, List.mem_singleton] at h
    rcases h with h | rfl
    · exact ih h
    · exact Nat.mod_lt _ (by omega)

/-- Reading the digits back, most significant first, gives `n` modulo `10 ^ w`. -/
theorem foldl_fixedDigits (w n : Nat) :
    (fixedDigits w n).foldl (fun acc d => acc * 10 + d) 0 = n % 10 ^ w := by
  induction w generalizing n with
  | zero => simp [fixedDigits, Nat.mod_one]
  | succ w ih =>
    rw [fixedDigits, List.foldl_append, ih, List.foldl_cons, List.foldl_nil, Nat.pow_succ',
      Nat.mod_mul]
    ac_rfl

theorem numDigits_go_le {fuel n w : Nat} (hn : n < 10 ^ w) (hw : 0 < w) :
    numDigits.go fuel n ≤ w := by
  induction fuel generalizing n w with
  | zero => simp [numDigits.go]; omega
  | succ fuel ih =>
    simp only [numDigits.go]
    split
    · omega
    · obtain ⟨w, rfl⟩ : ∃ v, w = v + 1 := ⟨w - 1, by omega⟩
      have hw' : 0 < w := by
        rcases Nat.eq_zero_or_pos w with rfl | h
        · simp at hn; omega
        · exact h
      have := ih (n := n / 10) (w := w) (by rw [Nat.pow_succ] at hn; omega) hw'
      omega

theorem lt_numDigits_go {fuel n w : Nat} (hn : 10 ^ w ≤ n) (hf : n ≤ fuel) :
    w < numDigits.go fuel n := by
  induction fuel generalizing n w with
  | zero => have := Nat.one_le_pow w 10 (by omega); omega
  | succ fuel ih =>
    simp only [numDigits.go]
    cases w with
    | zero => split <;> omega
    | succ w =>
      have h10 : 10 ≤ n := le_trans (Nat.le_self_pow (by omega) 10) hn
      rw [if_neg (by omega)]
      have := ih (w := w) (n := n / 10) (by rw [Nat.pow_succ] at hn; omega) (by omega)
      omega

/-- Below `10 ^ w` the padded form is exactly the last `w` digits. -/
theorem fmtPad_of_lt {w n : Nat} (hn : n < 10 ^ w) (hw : 0 < w) :
    fmtPad w n = (fixedDigits w n).map digitByte := by
  rw [fmtPad, numDigits, max_eq_left (numDigits_go_le hn hw)]

theorem le_length_fmtPad (w n : Nat) : w ≤ (fmtPad w n).length := by
  rw [fmtPad, List.length_map, length_fixedDigits]
  exact le_max_left w (numDigits n)

/-- From `10 ^ w` on, the padded form is longer than `w`. -/
theorem lt_length_fmtPad {w n : Nat} (hn : 10 ^ w ≤ n) : w < (fmtPad w n).length := by
  simp only [fmtPad, numDigits, List.length_map, length_fixedDigits]
  exact lt_of_lt_of_le (lt_numDigits_go hn le_rfl) (le_max_right _ _)

theorem isAsciiDigit_of_mem_fmtPad {w n : Nat} {b : UInt8} (h : b ∈ fmtPad w n) :
    isAsciiDigit b = true := by
  obtain ⟨d, hd, rfl⟩ := List.mem_map.mp h
  exact isAsciiDigit_digitByte d (lt_of_mem_fixedDigits hd)

/-! ### `Result` -/

section Result

variable {ε α β : Type}

@[simp] theorem except_pure (a : α) : (pure a : Except ε α) = .ok a := rfl

@[simp] theorem except_throw (e : ε) : (throw e : Except ε α) = .error e := rfl

@[simp] theorem except_ok_bind (a : α) (f : α → Except ε β) : (Except.ok a >>= f) = f a := rfl

@[simp] theorem except_error_bind (e : ε) (f : α → Except ε β) :
    (Except.error e >>= f) = .error e := rfl

@[simp] theorem except_mapError_ok {ε' : Type} (f : ε → ε') (a : α) :
    (Except.ok a : Except ε α).mapError f = .ok a := rfl

@[simp] theorem except_mapError_error {ε' : Type} (f : ε → ε') (e : ε) :
    (Except.error e : Except ε α).mapError f = .error (f e) := rfl

/-- A `?` that succeeds: the first step succeeded, and the rest from its value. -/
theorem except_bind_eq_ok {x : Except ε α} {f : α → Except ε β} {b : β} :
    (x >>= f) = .ok b ↔ ∃ a, x = .ok a ∧ f a = .ok b := by
  cases x <;> simp

theorem except_mapError_eq_ok {ε' : Type} {x : Except ε α} {f : ε → ε'} {a : α} :
    x.mapError f = .ok a ↔ x = .ok a := by
  cases x <;> simp

/-- `collect::<Result<Vec<_>, _>>()` succeeds exactly when every item converts, each to
the item at its place. -/
theorem mapM_eq_ok_iff {f : α → Except ε β} :
    ∀ {l : List α} {l' : List β}, l.mapM f = .ok l' ↔ List.Forall₂ (fun a b => f a = .ok b) l l'
  | [], l' => by
    rw [List.mapM_nil, except_pure]
    cases l' with
    | nil => simp
    | cons b l' =>
      constructor
      · intro h
        cases h
      · intro h
        cases h
  | a :: l, l' => by
    rw [List.mapM_cons]
    cases l' with
    | nil =>
      simp only [except_bind_eq_ok, except_pure]
      constructor
      · rintro ⟨_, _, _, _, h⟩
        cases h
      · intro h
        cases h
    | cons b l' =>
      simp only [except_bind_eq_ok, except_pure, List.forall₂_cons, ← mapM_eq_ok_iff (l := l)]
      constructor
      · rintro ⟨b', hb, l'', hl, h⟩
        cases h
        exact ⟨hb, hl⟩
      · rintro ⟨hb, hl⟩
        exact ⟨b, hb, l', hl, rfl⟩

/-- `collect::<Result<Vec<_>, _>>()` over items that all convert. -/
theorem mapM_of_forall_ok {f : α → Except ε β} {g : α → β} :
    ∀ {l : List α}, (∀ a ∈ l, f a = .ok (g a)) → l.mapM f = .ok (l.map g)
  | [], _ => rfl
  | a :: l, h => by
    rw [List.mapM_cons, h a (List.mem_cons_self a l),
      mapM_of_forall_ok fun x hx => h x (List.mem_cons_of_mem a hx)]
    rfl

/-- Every item of a successful `collect::<Result<Vec<_>, _>>()` converted. -/
theorem exists_ok_of_mapM_eq_ok {f : α → Except ε β} {l : List α} {l' : List β}
    (h : l.mapM f = .ok l') : ∀ a ∈ l, ∃ b, f a = .ok b := by
  have hf := mapM_eq_ok_iff.mp h
  clear h
  induction hf with
  | nil => simp
  | cons hab _ ih => exact List.forall_mem_cons.mpr ⟨⟨_, hab⟩, ih⟩

/-- Each item that a successful `collect::<Result<Vec<_>, _>>()` returns was converted from
an item of the input. -/
theorem exists_of_mem_mapM_eq_ok {f : α → Except ε β} {l : List α} {l' : List β}
    (h : l.mapM f = .ok l') {b : β} (hb : b ∈ l') : ∃ a ∈ l, f a = .ok b := by
  have hf := mapM_eq_ok_iff.mp h
  clear h
  induction hf with
  | nil => cases hb
  | cons hab _ ih =>
    rcases List.mem_cons.mp hb with rfl | hb
    · exact ⟨_, List.mem_cons_self _ _, hab⟩
    · obtain ⟨a, ha, hfa⟩ := ih hb
      exact ⟨a, List.mem_cons_of_mem _ ha, hfa⟩

/-- `collect::<Result<Vec<_>, _>>()` stops at the first item that fails and returns its
error. -/
theorem mapM_eq_error_of_exists {f : α → Except ε β} {l : List α}
    (h : ∃ a ∈ l, ∃ e, f a = .error e) :
    ∃ l₁ a l₂ e, l = l₁ ++ a :: l₂ ∧ (∀ x ∈ l₁, ∃ b, f x = .ok b) ∧ f a = .error e ∧
      l.mapM f = .error e := by
  induction l with
  | nil => simp at h
  | cons x l ih =>
    cases hx : f x with
    | error e => exact ⟨[], x, l, e, rfl, by simp, hx, by rw [List.mapM_cons, hx]; rfl⟩
    | ok b =>
      obtain ⟨a, ha, e, he⟩ := h
      have ha : a ∈ l := (List.mem_cons.mp ha).resolve_left fun h => by
        rw [h, hx] at he; cases he
      obtain ⟨l₁, a', l₂, e', rfl, h₁, ha', hm⟩ := ih ⟨a, ha, e, he⟩
      refine ⟨x :: l₁, a', l₂, e', rfl, fun y hy => ?_, ha', by rw [List.mapM_cons, hx, hm]; rfl⟩
      rcases List.mem_cons.mp hy with rfl | hy
      · exact ⟨b, hx⟩
      · exact h₁ y hy

end Result

end RustTuf
