import Mathlib.Tactic.Ring
import TraceGloss.Proofs.Word.Literal
import TraceGloss.Proofs.Word.Value

/-
  Which texts are words, and which word a text is.
  `Hex.number` is the number that a run of digits denotes. A text is read if there are only digits
  behind its mark (`decode?_eq_some_iff`), and as the word of its number in as many bytes as its digits
  need (`value_of_parse`, `length_of_parse`). A literal is read back unless its word is wide and starts
  with a zero byte (`parse_literal_iff`), and it has no leading zero digit (`literal_cases`). Taken
  together that is `text_codec`.
-/
namespace TraceGloss

namespace Hex

/-- The digits, each at the place of its value. -/
def alphabet : List Char :=
  ['0', '1', '2', '3', '4', '5', '6', '7', '8', '9', 'a', 'b', 'c', 'd', 'e', 'f']

/-- A hex digit of either case. -/
def IsDigit (c : Char) : Prop := c.toLower ∈ alphabet

instance : DecidablePred IsDigit := fun c => inferInstanceAs (Decidable (c.toLower ∈ alphabet))

def digitValue (c : Char) : Nat := alphabet.idxOf c.toLower

/-- What stands behind the mark of a text, if it has one. -/
def digitsOf (text : String) : List Char := unmarked text.toList

/-- The number that a run of digits denotes. -/
def number (digits : List Char) : Nat := Nat.ofDigits 16 (digits.map digitValue).reverse

/-! ## One digit -/

theorem value?_eq (c : Char) : value? c = if IsDigit c then some (digitValue c) else none := by
  have hascii : ∀ n : Fin 128, value? (Char.ofNat n) =
      if IsDigit (Char.ofNat n) then some (digitValue (Char.ofNat n)) else none := by
    decide +kernel
  by_cases hc : c.toNat < 128
  · have h := hascii ⟨c.toNat, hc⟩
    rwa [Char.ofNat_toNat] at h
  · -- Behind the letters there is no digit, and no capital either.
    have hbeyond : ∀ d : Char, d ≤ 'f' → ¬ c ≤ d := by
      intro d hd hle
      have hlast : c.toNat ≤ 102 := Nat.le_trans hle hd
      omega
    have hother : ¬ IsDigit c := by
      have hlower : c.toLower = c := dif_neg fun h => hbeyond 'Z' (by decide) h.2
      have hlast : alphabet.all (· ≤ 'f') = true := by decide
      rw [IsDigit, hlower]
      intro h
      have hle : c ≤ 'f' := by simpa using List.all_eq_true.mp hlast c h
      exact hbeyond 'f' (Char.le_refl _) hle
    have hnine := hbeyond '9' (by decide)
    have hlower := hbeyond 'f' (by decide)
    have hupper := hbeyond 'F' (by decide)
    simp [value?, hother, hnine, hlower, hupper]

theorem of_value? {c : Char} {n : Nat} (h : value? c = some n) :
    IsDigit c ∧ digitValue c = n := by
  rw [value?_eq] at h
  split at h
  · rename_i hdigit
    exact ⟨hdigit, Option.some.inj h⟩
  · cases h

theorem digitValue_lt {c : Char} (h : IsDigit c) : digitValue c < 16 :=
  List.idxOf_lt_length_iff.mpr h

/-- A digit is written in lower case. -/
theorem digit_digitValue {c : Char} (h : IsDigit c) : digit (digitValue c) = c.toLower := by
  have hall : ∀ n : Fin alphabet.length, digit n = alphabet[n] := by decide
  have hplace := hall ⟨digitValue c, digitValue_lt h⟩
  rw [hplace]
  exact List.getElem_idxOf _

theorem digitValue_digit {n : Nat} (h : n < 16) : digitValue (digit n) = n := by
  have all : ∀ m : Fin 16, digitValue (digit m.val) = m.val := by decide
  exact all ⟨n, h⟩

/-! ## Runs of digits -/

theorem number_cons (c : Char) (digits : List Char) :
    number (c :: digits) = digitValue c * 16 ^ digits.length + number digits := by
  rw [number, List.map_cons, ofDigits_reverse_cons, List.length_map, number]

/-- The case of digits does not matter. -/
theorem number_map_toLower {digits : List Char} (h : ∀ c ∈ digits, IsDigit c) :
    number (digits.map Char.toLower) = number digits := by
  have hvalues : (digits.map Char.toLower).map digitValue = digits.map digitValue := by
    rw [List.map_map]
    refine List.map_congr_left fun c hc => ?_
    rw [Function.comp_apply, ← digit_digitValue (h c hc), digitValue_digit (digitValue_lt (h c hc))]
  rw [number, hvalues, number]

/-- The digits of a byte string denote its number. -/
theorem number_encode (bytes : List UInt8) : number (encode bytes) = bigEndian bytes := by
  induction bytes with
  | nil => rfl
  | cons b bytes ih =>
    have hb := b.toNat_lt
    have hsplit : 16 * (b.toNat / 16) + b.toNat % 16 = b.toNat := Nat.div_add_mod _ _
    have hpower : 16 ^ (2 * bytes.length) = 256 ^ bytes.length := by rw [Nat.pow_mul]
    rw [encode_cons, number_cons, number_cons, List.length_cons, length_encode,
      digitValue_digit (by omega), digitValue_digit (by omega), ih, bigEndian_cons, Nat.pow_succ,
      hpower]
    calc b.toNat / 16 * (256 ^ bytes.length * 16) +
          (b.toNat % 16 * 256 ^ bytes.length + bigEndian bytes)
        = (16 * (b.toNat / 16) + b.toNat % 16) * 256 ^ bytes.length + bigEndian bytes := by ring
      _ = b.toNat * 256 ^ bytes.length + bigEndian bytes := by rw [hsplit]

/-- Only digits are read, and what is read is written in lower case. -/
theorem of_decode? {digits : List Char} {bytes : List UInt8} (h : decode? digits = some bytes) :
    (∀ c ∈ digits, IsDigit c) ∧ encode bytes = digits.map Char.toLower := by
  fun_induction decode? digits generalizing bytes with
  | case1 =>
    cases h
    exact ⟨List.forall_mem_nil _, rfl⟩
  | case2 => cases h
  | case3 first second rest high low bytes' hrest hlow hhigh ih =>
    cases h
    obtain ⟨hfirst, rfl⟩ := of_value? hhigh
    obtain ⟨hsecond, rfl⟩ := of_value? hlow
    obtain ⟨hdigits, hencode⟩ := ih hrest
    have hfirst' := digitValue_lt hfirst
    have hsecond' := digitValue_lt hsecond
    have hbyte : (UInt8.ofNat (16 * digitValue first + digitValue second)).toNat =
        16 * digitValue first + digitValue second :=
      UInt8.toNat_ofNat_of_lt' (by show _ < 256; omega)
    have hdiv : (16 * digitValue first + digitValue second) / 16 = digitValue first := by omega
    have hmod : (16 * digitValue first + digitValue second) % 16 = digitValue second := by omega
    refine ⟨?_, ?_⟩
    · exact List.forall_mem_cons.mpr ⟨hfirst, List.forall_mem_cons.mpr ⟨hsecond, hdigits⟩⟩
    · rw [encode_cons, hbyte, hdiv, hmod, digit_digitValue hfirst, digit_digitValue hsecond, hencode,
        List.map_cons, List.map_cons]
  | case4 => cases h

/-- An even run of digits is read. -/
theorem exists_decode? : ∀ {digits : List Char}, (∀ c ∈ digits, IsDigit c) →
    digits.length % 2 = 0 → ∃ bytes, decode? digits = some bytes
  | [], _, _ => ⟨[], rfl⟩
  | [_], _, heven => by cases heven
  | first :: second :: rest, hdigits, heven => by
    obtain ⟨hfirst, hbehind⟩ := List.forall_mem_cons.mp hdigits
    obtain ⟨hsecond, hrest⟩ := List.forall_mem_cons.mp hbehind
    have heven' : rest.length % 2 = 0 := by
      rw [List.length_cons, List.length_cons] at heven
      omega
    obtain ⟨bytes, hbytes⟩ := exists_decode? hrest heven'
    rw [decode?, value?_eq, if_pos hfirst, value?_eq, if_pos hsecond, hbytes]
    exact ⟨_, rfl⟩

/-! ## Texts -/

theorem forall_mem_completed (digits : List Char) :
    (∀ c ∈ completed digits, IsDigit c) ↔ ∀ c ∈ digits, IsDigit c := by
  have hzero : IsDigit '0' := by decide
  rw [completed]
  split
  · rw [List.forall_mem_cons]
    exact and_iff_right hzero
  · exact Iff.rfl

theorem length_completed (digits : List Char) :
    (completed digits).length = 2 * ((digits.length + 1) / 2) := by
  rw [completed]
  split
  · rw [List.length_cons]
    omega
  · omega

/-- A zero in front changes no number. -/
theorem number_completed (digits : List Char) : number (completed digits) = number digits := by
  have hzero : digitValue '0' = 0 := by decide
  rw [completed]
  split
  · rw [number_cons, hzero, Nat.zero_mul, Nat.zero_add]
  · rfl

/-- A text is read if and only if there are only digits behind its mark. -/
theorem exists_read_iff (text : String) :
    (∃ bytes, read text = .ok bytes) ↔ ∀ c ∈ digitsOf text, IsDigit c := by
  rw [← forall_mem_completed]
  constructor
  · rintro ⟨bytes, h⟩
    rw [read] at h
    split at h
    · rename_i hdecode
      exact (of_decode? hdecode).1
    · cases h
  · intro hdigits
    have heven : (completed (digitsOf text)).length % 2 = 0 := by
      rw [length_completed]
      omega
    obtain ⟨bytes, hbytes⟩ := exists_decode? hdigits heven
    exact ⟨bytes, by rw [read, ← digitsOf, hbytes]⟩

/-- The bytes of a text are its digits, completed to pairs. -/
theorem encode_of_read {text : String} {bytes : List UInt8} (h : read text = .ok bytes) :
    encode bytes = (completed (digitsOf text)).map Char.toLower := by
  rw [read] at h
  split at h
  · rename_i hdecode
    cases h
    exact (of_decode? hdecode).2
  · cases h

theorem read_error {text : String} {e : HexError} (h : read text = .error e) :
    e = .invalidHex text := by
  rw [read] at h
  split at h <;> cases h
  rfl

end Hex

namespace Word

/-! ## Reading words -/

variable {text : String} {w : Word}

theorem parse_eq_ok_iff :
    parse text = .ok w ↔ ∃ bytes, Hex.read text = .ok bytes ∧ ofBytes bytes = w := by
  rw [parse]
  cases Hex.read text with
  | error e => simp [Except.map]
  | ok bytes => simp [Except.map]

theorem exists_parse_iff (text : String) :
    (∃ w, parse text = .ok w) ↔ ∀ c ∈ Hex.digitsOf text, Hex.IsDigit c := by
  rw [← Hex.exists_read_iff]
  simp only [parse_eq_ok_iff]
  constructor
  · rintro ⟨w, bytes, h, -⟩
    exact ⟨bytes, h⟩
  · rintro ⟨bytes, h⟩
    exact ⟨ofBytes bytes, bytes, h, rfl⟩

/-- A word has the number of its text. -/
theorem value_of_parse (h : parse text = .ok w) :
    w.value = Hex.number (Hex.digitsOf text) := by
  obtain ⟨bytes, hread, rfl⟩ := parse_eq_ok_iff.mp h
  have hdigits := (Hex.forall_mem_completed _).mpr ((exists_parse_iff text).mp ⟨_, h⟩)
  rw [value_ofBytes, ← Hex.number_encode, Hex.encode_of_read hread, Hex.number_map_toLower hdigits,
    Hex.number_completed]

/-- A word has a byte for each two digits of its text, and at least a slot. -/
theorem length_of_parse (h : parse text = .ok w) :
    w.bytes.length = max slotBytes (((Hex.digitsOf text).length + 1) / 2) := by
  obtain ⟨bytes, hread, rfl⟩ := parse_eq_ok_iff.mp h
  have hlength := congrArg List.length (Hex.encode_of_read hread)
  rw [Hex.length_encode, List.length_map, Hex.length_completed] at hlength
  rw [length_bytes_ofBytes]
  congr 1
  omega

/-- Of more digits than a slot has, each is kept. -/
theorem encode_of_parse (h : parse text = .ok w)
    (hlong : 2 * slotBytes < (Hex.digitsOf text).length) :
    Hex.encode w.bytes = (Hex.completed (Hex.digitsOf text)).map Char.toLower := by
  obtain ⟨bytes, hread, rfl⟩ := parse_eq_ok_iff.mp h
  have hencode := Hex.encode_of_read hread
  have hlength := congrArg List.length hencode
  rw [Hex.length_encode, List.length_map, Hex.length_completed] at hlength
  rw [bytes_ofBytes_of_le (by omega), hencode]

/-! ## Writing words -/

theorem dropWhile_of_head? {bytes : List UInt8} (h : bytes.head? ≠ some 0) :
    bytes.dropWhile (· == 0) = bytes := by
  cases bytes with
  | nil => rfl
  | cons b rest =>
    have hb : ¬ b = 0 := fun hb => h (by rw [hb, List.head?_cons])
    exact List.dropWhile_cons_of_neg (by simpa using hb)

/-- A literal is read back if and only if its word is slot-sized or does not start with a zero byte. -/
theorem parse_literal_iff (w : Word) :
    parse w.literal = .ok w ↔ w.isWide = false ∨ w.bytes.head? ≠ some 0 := by
  rw [parse_literal_eq]
  constructor
  · intro h
    by_contra hneither
    obtain ⟨hwide, hfirst⟩ := not_or.mp hneither
    obtain ⟨rest, hbytes⟩ := List.head?_eq_some_iff.mp (not_not.mp hfirst)
    have hlength := congrArg (fun v => v.bytes.length) (Except.ok.inj h)
    rw [length_bytes_ofBytes, hbytes, List.dropWhile_cons_of_pos (by decide),
      List.length_cons] at hlength
    have hshorter := (List.dropWhile_suffix (l := rest) (· == (0 : UInt8))).length_le
    rw [isWide_eq_false_iff, hbytes, List.length_cons] at hwide
    -- A wide word has not just the bytes of a slot, and the zero byte is lost of it.
    omega
  · rintro (hslot | hfirst)
    · rw [ofBytes_dropWhile hslot]
    · rw [dropWhile_of_head? hfirst, ofBytes_bytes]

/-- A literal has no leading zero digit, except for that of zero. -/
theorem literal_cases (w : Word) :
    w.literal = "0x0" ∨
      ∃ c rest, w.literal = String.ofList ('0' :: 'x' :: c :: rest) ∧ c ≠ '0' := by
  rw [literal, shortDigits]
  have hhead := List.head?_dropWhile_not (· == '0') (Hex.encode w.bytes)
  cases hdigits : (Hex.encode w.bytes).dropWhile (· == '0') with
  | nil => exact .inl rfl
  | cons c rest =>
    rw [hdigits] at hhead
    exact .inr ⟨c, rest, rfl, by simpa using hhead⟩

/-- Texts and words. A text is a word if and only if there are only hex digits behind at most one
mark, and is refused as a whole otherwise. Its word has the number that the digits denote, in one slot
if they fit and digit by digit if they do not, so up to a slot two texts are one word if and only if
they denote one number. The stored form of a word is read back always, and its literal unless the word
is wide and starts with a zero byte; a literal has no leading zero but that of zero. -/
theorem text_codec :
    (∀ text, ((∃ w, parse text = .ok w) ↔ ∀ c ∈ Hex.digitsOf text, Hex.IsDigit c) ∧
      ((∃ w, parse text = .ok w) ∨ parse text = .error (.invalidHex text))) ∧
    (∀ text w, parse text = .ok w →
      w.value = Hex.number (Hex.digitsOf text) ∧
      w.bytes.length = max 32 (((Hex.digitsOf text).length + 1) / 2) ∧
      (64 < (Hex.digitsOf text).length →
        Hex.encode w.bytes = (Hex.completed (Hex.digitsOf text)).map Char.toLower)) ∧
    (∀ s t v w, parse s = .ok v → parse t = .ok w →
      (Hex.digitsOf s).length ≤ 64 → (Hex.digitsOf t).length ≤ 64 →
        (v = w ↔ Hex.number (Hex.digitsOf s) = Hex.number (Hex.digitsOf t))) ∧
    ∀ w : Word, parse w.fullText = .ok w ∧
      (parse w.literal = .ok w ↔ w.isWide = false ∨ w.bytes.head? ≠ some 0) ∧
      (w.literal = "0x0" ∨
        ∃ c rest, w.literal = String.ofList ('0' :: 'x' :: c :: rest) ∧ c ≠ '0') := by
  refine ⟨fun text => ⟨exists_parse_iff text, ?_⟩, ?_, ?_, fun w => ⟨parse_fullText w,
    parse_literal_iff w, literal_cases w⟩⟩
  · rcases hread : Hex.read text with e | bytes
    · right
      rw [parse, hread, Hex.read_error hread]
      rfl
    · exact .inl ⟨ofBytes bytes, parse_eq_ok_iff.mpr ⟨bytes, hread, rfl⟩⟩
  · intro text w h
    exact ⟨value_of_parse h, length_of_parse h, encode_of_parse h⟩
  · intro s t v w hs ht hshort hshort'
    have hlength := length_of_parse hs
    have hlength' := length_of_parse ht
    have hslot : v.bytes.length = w.bytes.length := by simp only [slotBytes] at *; omega
    rw [eq_iff_value_eq hslot, value_of_parse hs, value_of_parse ht]

theorem text_codec_leadingZero :
    ∃ w, parse "0x0aBc" = .ok w ∧ parse "Abc" = .ok w ∧ parse w.fullText = .ok w := by
  obtain ⟨hread, hword, hsame, hwritten⟩ := text_codec
  have hdigits : (Hex.digitsOf "0x0aBc").all (Hex.IsDigit ·) = true := by decide
  have hdigits' : (Hex.digitsOf "Abc").all (Hex.IsDigit ·) = true := by decide
  obtain ⟨v, hv⟩ := (hread "0x0aBc").1.mpr (by simpa using hdigits)
  obtain ⟨w, hw⟩ := (hread "Abc").1.mpr (by simpa using hdigits')
  have heq := (hsame _ _ v w hv hw (by decide) (by decide)).mpr (by decide)
  exact ⟨w, heq ▸ hv, hw, (hwritten w).1⟩

end Word

end TraceGloss
